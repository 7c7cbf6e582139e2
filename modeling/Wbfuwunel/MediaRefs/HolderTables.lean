import Wbfuwunel.Database.Pairs
import Wbfuwunel.MediaRefs.Listing

/-! The four holder tables against each other, after any transactions on them.

Every transaction adds and deletes the two rows of a pair together. The rows of a room go only with all its holders:
what reads the holders back finds every one of them, whatever bytes its position has.
-/

set_option autoImplicit false

namespace Wbfuwunel.MediaRefs

open Foundation Database List Store Tables Holder De

/-! ## Reading a holder back -/

@[simp] theorem unbiasGSeq_biasGSeq (gSeq : Int64) : unbiasGSeq (biasGSeq gSeq) = gSeq := by
  exact Int64.sub_add_cancel gSeq Int64.minValue

theorem clean_texts (texts : List String) : ∀ record ∈ texts.map utf8, SEP ∉ record := by
  simp only [mem_map]
  rintro _ ⟨text, -, rfl⟩
  exact separator_not_mem_utf8 text

namespace Tables

theorem fromSlice_positionOfKey (mxc kind r : String) (biased : UInt64) :
    fromSlice positionOfKey (serializeKey [.str mxc, .str kind, .str r, .u64 biased]) = some (r, biased) := by
  have k : serializeKey [.str mxc, .str kind, .str r, .u64 biased] =
      closed ([mxc, kind].map utf8) (utf8 r ++ SEP :: toBeBytes64 biased) := by simp [closed, Element.encode]
  obtain ⟨behind, stands, started, reads⟩ := fromSlice_skip
    (do let r ← element str; let biased ← element u64; return (r, biased))
    (utf8 r ++ SEP :: toBeBytes64 biased) (clean_texts [mxc, kind]) (show 4 > 0 by decide)
  obtain ⟨last, read, stands, started⟩ := run_element_str stands started
  obtain ⟨⟨_, after⟩, pos, rfl⟩ := Option.map_eq_some_iff.mp (run_element_u64 stands started)
  refine (k ▸ reads).trans ?_
  simp [read, pos]

theorem fromSlice_memberOfKey (mxc kind r user : String) :
    fromSlice memberOfKey (serializeKey [.str mxc, .str kind, .str r, .str user]) = some (r, user) := by
  have k : serializeKey [.str mxc, .str kind, .str r, .str user] =
      closed ([mxc, kind].map utf8) (utf8 r ++ SEP :: utf8 user) := by simp [closed, Element.encode]
  obtain ⟨behind, stands, started, reads⟩ := fromSlice_skip
    (do let r ← element str; let user ← element str; return (r, user))
    (utf8 r ++ SEP :: utf8 user) (clean_texts [mxc, kind]) (show 4 > 0 by decide)
  obtain ⟨last, read, stands, started⟩ := run_element_str stands started
  obtain ⟨⟨_, after⟩, mem, rfl⟩ := Option.map_eq_some_iff.mp (run_element_str_last stands started)
  refine (k ▸ reads).trans ?_
  simp [read, mem]

theorem fromSlice_biasedOfKey (mxc kind r : String) (biased : UInt64) :
    fromSlice biasedOfKey (serializeKey [.str mxc, .str kind, .str r, .u64 biased]) = some biased := by
  have k : serializeKey [.str mxc, .str kind, .str r, .u64 biased] =
      closed ([mxc, kind, r].map utf8) (toBeBytes64 biased) := by simp [closed, Element.encode]
  obtain ⟨behind, stands, started, reads⟩ := fromSlice_skip (element u64) (toBeBytes64 biased)
    (clean_texts [mxc, kind, r]) (show 4 > 0 by decide)
  exact (k ▸ reads).trans (run_element_u64 stands started)

theorem mem_decoded {α : Type} {store : Store Bytes Unit} {start k : Bytes} {decode : De α} {make : α → Holder}
    {v : α} {x : Holder} (got : store.find k = some ()) (pre : start <+: k)
    (reads : fromSlice decode k = some v) (named : make v = x) :
    x ∈ (store.rowsBeginning start).filterMap fun row => (fromSlice decode row.1).map make := by
  refine mem_filterMap.mpr ⟨(k, ()), store.mem_rowsBeginning.mpr ⟨find_eq_some_iff.mp got, pre⟩, ?_⟩
  simp [reads, named]

end Tables

section Readback

variable {tables : Tables} {held : Holder → String → Prop} (ok : Agrees tables held) {x : Holder} {mxc : String}
  (h : held x mxc)
include ok h

theorem Agrees.mem_listHolders : x ∈ tables.listHolders mxc := by
  have found := (ok.forward _).mpr ⟨x, mxc, rfl, h⟩
  have pre : serializeKey [.str mxc, .str x.kind] <+: x.mxcHolderKey mxc := by
    cases x <;> simp [mxcHolderKey]
  simp only [listHolders, mem_append]
  cases x with
  | event r gSeq =>
    have reads := fromSlice_positionOfKey mxc "e" r (biasGSeq gSeq)
    exact .inl (.inl (.inl (mem_decoded found pre reads (by simp))))
  | backup r gSeq =>
    have reads := fromSlice_positionOfKey mxc "b" r (biasGSeq gSeq)
    exact .inl (.inl (.inr (mem_decoded found pre reads (by simp))))
  | avatar localpart =>
    have reads := fromSlice_strAfter_text (clean_texts [mxc, "a"]) localpart
    have k : closed ([mxc, "a"].map utf8) (utf8 localpart) = (avatar localpart).mxcHolderKey mxc := by
      simp [closed, mxcHolderKey, kind, Element.encode]
    exact .inl (.inr (mem_decoded found pre (k ▸ reads) rfl))
  | roomAvatar r u =>
    have reads := fromSlice_memberOfKey mxc "r" r u
    exact .inr (mem_decoded found pre reads rfl)

theorem Agrees.mem_listRoomHolders {r : String} (lives : x.room? = some r) : x ∈ tables.listRoomHolders mxc r := by
  have found := (ok.forward _).mpr ⟨x, mxc, rfl, h⟩
  have pre : serializeKey [.str mxc, .str x.kind, .str r] <+: x.mxcHolderKey mxc := by
    cases x <;> simp_all [mxcHolderKey, room?]
  simp only [listRoomHolders, mem_append]
  cases x with
  | event o gSeq =>
    obtain rfl := Option.some.inj lives
    have reads := fromSlice_biasedOfKey mxc "e" o (biasGSeq gSeq)
    exact .inl (.inl (mem_decoded found pre reads (by simp)))
  | backup o gSeq =>
    obtain rfl := Option.some.inj lives
    have reads := fromSlice_biasedOfKey mxc "b" o (biasGSeq gSeq)
    exact .inl (.inr (mem_decoded found pre reads (by simp)))
  | avatar localpart => cases lives
  | roomAvatar o u =>
    obtain rfl := Option.some.inj lives
    have reads := fromSlice_strAfter_text (clean_texts [mxc, "r", o]) u
    have k : closed ([mxc, "r", o].map utf8) (utf8 u) = (roomAvatar o u).mxcHolderKey mxc := by
      simp [closed, mxcHolderKey, kind, Element.encode]
    exact .inr (mem_decoded found pre (k ▸ reads) rfl)

end Readback

/-! ## Tables that agree -/

structure Sound (tables : Tables) (held : Holder → String → Prop) (rooms : String × String → Prop) : Prop where
  agrees : Agrees tables held
  roomMxc : tables.roomMxc.Lists (fun (room, mxc) => pairKey room mxc) rooms
  mxcRoom : tables.mxcRoom.Lists (fun (room, mxc) => pairKey mxc room) rooms
  lives : ∀ holder mxc room, held holder mxc → holder.room? = some room → rooms (room, mxc)

theorem sound_empty : Sound .empty (fun _ _ => False) fun _ => False where
  agrees := agrees_empty
  roomMxc := lists_empty _
  mxcRoom := lists_empty _
  lives _ _ _ h := h.elim

theorem pairKey_injective : Function.Injective fun pair : String × String => pairKey pair.1 pair.2 :=
  fun _ _ eq => Prod.ext_iff.mpr (pairKey_inj.mp eq)

theorem pairKey_swapped_injective : Function.Injective fun pair : String × String => pairKey pair.2 pair.1 :=
  fun _ _ eq => Prod.ext_iff.mpr (pairKey_inj.mp eq).symm

section Sound

variable {t : Tables} {held : Holder → String → Prop} {rooms : String × String → Prop} (h : Sound t held rooms)
include h

theorem Sound.congr {others : Holder → String → Prop} {places : String × String → Prop}
    (eq : ∀ x mxc, held x mxc ↔ others x mxc) (alike : ∀ pair, rooms pair ↔ places pair) :
    Sound t others places := by
  obtain rfl : held = others := funext₂ fun x mxc => propext (eq x mxc)
  obtain rfl : rooms = places := funext fun pair => propext (alike pair)
  exact h

theorem Sound.hold (mxc : String) (x : Holder) : ∃ rooms, Sound (t.hold mxc x) (holdsAfter held (.hold mxc x)) rooms := by
  cases lives : x.room? with
  | none =>
    refine ⟨rooms, h.agrees.hold mxc x, ?_, ?_, ?_⟩
    · simpa [Tables.hold, lives] using h.roomMxc
    · simpa [Tables.hold, lives] using h.mxcRoom
    · rintro o b r (⟨rfl, rfl⟩ | holds) there
      · rw [lives] at there
        cases there
      · exact h.lives o b r holds there
  | some r =>
    refine ⟨fun pair => pair = (r, mxc) ∨ rooms pair, h.agrees.hold mxc x, ?_, ?_, ?_⟩
    · simpa [Tables.hold, lives, pairKey] using h.roomMxc.put (r, mxc)
    · simpa [Tables.hold, lives, pairKey] using h.mxcRoom.put (r, mxc)
    · rintro o b place (⟨rfl, rfl⟩ | holds) there
      · rw [lives] at there
        obtain rfl := Option.some.inj there
        exact .inl rfl
      · exact .inr (h.lives o b place holds there)

theorem Sound.delHolderRows (mxc : String) (x : Holder) :
    Sound (t.delHolderRows mxc x) (holdsAfter held (.release mxc x)) rooms := { h with
  agrees := h.agrees.delHolderRows mxc x
  lives o b r holds := h.lives o b r holds.2 }

theorem Sound.delHolders (mxc : String) (holders : List Holder) :
    Sound (holders.foldl (fun next x => next.delHolderRows mxc x) t)
      (fun x b => ¬(b = mxc ∧ x ∈ holders) ∧ held x b) rooms := by
  induction holders generalizing t held with
  | nil => simpa using h
  | cons a holders ih =>
    refine (ih (h.delHolderRows mxc a)).congr (fun x b => ?_) fun _ => .rfl
    simp only [holdsAfter, mem_cons]
    tauto

theorem Sound.delRoomRows {r mxc : String} (free : ∀ x, x.room? = some r → ¬held x mxc) :
    Sound (t.delRoomRows r mxc) held fun pair => pair ≠ (r, mxc) ∧ rooms pair where
  agrees := ⟨h.agrees.forward, h.agrees.reverse⟩
  roomMxc := h.roomMxc.del pairKey_injective (r, mxc)
  mxcRoom := h.mxcRoom.del pairKey_swapped_injective (r, mxc)
  lives x b place holds there := by
    refine ⟨fun eq => ?_, h.lives x b place holds there⟩
    obtain ⟨rfl, rfl⟩ := Prod.ext_iff.mp eq
    exact free x there holds

end Sound

/-! ## Transactions -/

namespace Tables

variable (t : Tables)

theorem foldl_delRoomRows (mxc : String) (rooms : List String) :
    rooms.foldl (fun next r => next.delRoomRows r mxc) t = { t with
      roomMxc := rooms.foldl (fun next r => next.del (serializeKey [.str r, .str mxc])) t.roomMxc
      mxcRoom := rooms.foldl (fun next r => next.del (serializeKey [.str mxc, .str r])) t.mxcRoom } := by
  induction rooms generalizing t with
  | nil => rfl
  | cons r rooms ih => exact ih (t.delRoomRows r mxc)

theorem forgetMedia_eq (mxc : String) : t.forgetMedia mxc =
      ((t.mxcRoom.rowsBeginning (serializeKey [.str mxc, .interfix])).filterMap fun row =>
        fromSlice (strAfter 1) row.1).foldl (fun next r => next.delRoomRows r mxc)
        ((t.listHolders mxc).foldl (fun next x => next.delHolderRows mxc x) t) := by
  rw [forgetMedia, ← foldl_delRoomRows]
  -- The two loops write to different tables.
  generalize (t.mxcRoom.rowsBeginning _).filterMap _ = rooms
  refine foldl_hom (fun next => rooms.foldl (fun next r => delRoomRows next r mxc) next) fun next x => ?_
  exact (foldl_hom (delHolderRows · mxc x) fun _ _ => rfl).symm

end Tables

/-! ## The room that goes -/

theorem Tables.room_of_mem_listRoomHolders {t : Tables} {mxc r : String} {x : Holder}
    (ls : x ∈ t.listRoomHolders mxc r) : x.room? = some r := by
  simp only [listRoomHolders, decodeRoomHolders, mem_append, mem_filterMap, Option.map_eq_some_iff] at ls
  rcases ls with (⟨_, _, _, _, rfl⟩ | ⟨_, _, _, _, rfl⟩) | ⟨_, _, _, _, rfl⟩ <;> rfl

/-- The media `release_room` walks, which the collector is handed once it has committed. -/
def Tables.roomMedia (tables : Tables) (room : String) : List String :=
  (tables.roomMxc.rowsBeginning (serializeKey [.str room, .interfix])).filterMap fun row => fromSlice (strAfter 1) row.1

section Room

variable {t : Tables} {held : Holder → String → Prop} {rooms : String × String → Prop}
  (h : Sound t held rooms)
include h

theorem Sound.mem_roomMedia {r mxc : String} : mxc ∈ t.roomMedia r ↔ rooms (r, mxc) := by
  simp only [roomMedia, mem_filterMap, mem_rowsBeginning]
  constructor
  · rintro ⟨⟨k, ⟨⟩⟩, ⟨row, pre⟩, reads⟩
    obtain ⟨⟨o, b⟩, rfl, there⟩ := (h.roomMxc k).mp (find_eq_some_iff.mpr row)
    obtain rfl := interfix_begins_pairKey.mp pre
    obtain rfl := Option.some.inj ((PairTable.fromSlice_pairKey r b).symm.trans reads)
    exact there
  · intro there
    have row := (h.roomMxc _).mpr ⟨(r, mxc), rfl, there⟩
    exact ⟨(_, ()), ⟨find_eq_some_iff.mp row, interfix_begins_pairKey.mpr rfl⟩, PairTable.fromSlice_pairKey r mxc⟩

/-- The loop over some media of the room. Nobody holds more along it than before, and those who did are listed. -/
theorem Sound.releaseMedia (r : String) (media : List String) {next : Tables} {left : Holder → String → Prop}
    {places : String × String → Prop} (now : Sound next left places)
    (fewer : ∀ holder mxc, left holder mxc → held holder mxc) :
    Sound (media.foldl (fun next mxc => ((t.listRoomHolders mxc r).foldl
        (fun next holder => next.delHolderRows mxc holder) next).delRoomRows r mxc) next)
      (fun holder mxc => ¬(mxc ∈ media ∧ holder.room? = some r) ∧ left holder mxc)
      (fun pair => ¬(pair.1 = r ∧ pair.2 ∈ media) ∧ places pair) := by
  induction media generalizing next left places with
  | nil => simpa using now
  | cons mxc media ih =>
    have cleared := now.delHolders mxc (t.listRoomHolders mxc r)
    have ls (holder : Holder) (holds : left holder mxc) : holder ∈ t.listRoomHolders mxc r ↔ holder.room? = some r :=
      ⟨room_of_mem_listRoomHolders, h.agrees.mem_listRoomHolders (fewer holder mxc holds)⟩
    have after := ih (cleared.delRoomRows fun holder there holds => holds.1 ⟨rfl, (ls holder holds.2).mpr there⟩)
      fun holder b holds => fewer _ _ holds.2
    refine after.congr (fun holder b => ?_) fun pair => ?_
    · by_cases eq : b = mxc
      · subst eq
        have := ls holder
        tauto
      · simp [eq]
    · simp only [mem_cons, Prod.ext_iff, ne_eq]
      tauto

theorem Sound.releaseRoom (r : String) : Sound (t.releaseRoom r)
    (fun x mxc => x.room? ≠ some r ∧ held x mxc) fun pair => pair.1 ≠ r ∧ rooms pair := by
  have after := h.releaseMedia r (t.roomMedia r) h fun _ _ holds => holds
  refine after.congr (fun x mxc => ?_) fun pair => ?_
  · have walked := h.lives x mxc r
    rw [h.mem_roomMedia]
    tauto
  · rw [h.mem_roomMedia]
    by_cases here : pair.1 = r
    · subst here
      simp
    · simp [here]

end Room

def Settled (tables : Tables) : Prop := ∃ held rooms, Sound tables held rooms

namespace Settled

variable {t : Tables} (settled : Settled t)
include settled

variable (mxc : String) (x : Holder)

theorem hold : Settled (t.hold mxc x) := by
  obtain ⟨held, rooms, sound⟩ := settled
  exact ⟨_, sound.hold mxc x⟩

theorem delHolderRows : Settled (t.delHolderRows mxc x) := by
  obtain ⟨held, rooms, sound⟩ := settled
  exact ⟨_, _, sound.delHolderRows mxc x⟩

theorem swap (source target : Holder) : Settled (t.swap mxc source target) :=
  (settled.delHolderRows mxc source).hold mxc target

theorem foldl {α : Type} {write : Tables → α → Tables} (keeps : ∀ t mxc, Settled t → Settled (write t mxc))
    (facts : List α) : Settled (facts.foldl write t) := by
  induction facts generalizing t with
  | nil => exact settled
  | cons fact facts ih => exact ih (keeps t fact settled)

theorem releaseAllOf : Settled (t.releaseAllOf x) :=
  settled.foldl (fun _ mxc settled => settled.delHolderRows mxc x) _

theorem swapAllOf (source target : Holder) : Settled (t.swapAllOf source target) :=
  settled.foldl (fun _ mxc settled => settled.swap mxc source target) _

theorem setAvatarRef (new : Option String) (held : List String) : Settled (t.setAvatarRef x new held) := by
  have dropped := settled.foldl (fun _ mxc settled => settled.delHolderRows mxc x) (held.filter (some · ≠ new))
  cases new with
  | none => exact dropped
  | some mxc => exact dropped.hold mxc x

theorem releaseRoom (r : String) : Settled (t.releaseRoom r) := by
  obtain ⟨held, rooms, sound⟩ := settled
  exact ⟨_, _, sound.releaseRoom r⟩

theorem forgetMedia : Settled (t.forgetMedia mxc) := by
  obtain ⟨held, rooms, sound⟩ := settled
  rw [forgetMedia_eq]
  have cleared := sound.delHolders mxc (t.listHolders mxc)
  have free : ∀ x, ¬(¬(mxc = mxc ∧ x ∈ t.listHolders mxc) ∧ held x mxc) := by
    rintro x ⟨unlisted, h⟩
    exact unlisted ⟨rfl, sound.agrees.mem_listHolders h⟩
  generalize (t.mxcRoom.rowsBeginning _).filterMap _ = places
  generalize (t.listHolders mxc).foldl _ t = next at cleared
  clear sound
  induction places generalizing next rooms with
  | nil => exact ⟨_, rooms, cleared⟩
  | cons r places ih => exact ih _ _ (cleared.delRoomRows fun x _ => free x)

end Settled

inductive RefTransaction where
  | hold (mxc : String) (holder : Holder)
  | release (mxc : String) (holder : Holder)
  | swap (mxc : String) (source target : Holder)
  | releaseAllOf (holder : Holder)
  | swapAllOf (source target : Holder)
  | setAvatarRef (userIsLocal : Bool) (localpart : String) (new : Option String)
  | setRoomAvatarRef (room user : String) (new : Option String)
  | releaseRoom (room : String)
  | forgetMedia (mxc : String)

def Tables.transact (tables : Tables) : RefTransaction → Tables
  | .hold mxc holder => tables.hold mxc holder
  | .release mxc holder => tables.release mxc holder
  | .swap mxc source target => tables.swap mxc source target
  | .releaseAllOf holder => tables.releaseAllOf holder
  | .swapAllOf source target => tables.swapAllOf source target
  | .setAvatarRef userIsLocal localpart new => tables.setProfileAvatarRef userIsLocal localpart new
  | .setRoomAvatarRef room user new => tables.setRoomAvatarRef room user new
  | .releaseRoom room => tables.releaseRoom room
  | .forgetMedia mxc => tables.forgetMedia mxc

variable {tables : Tables} {held : Holder → String → Prop}

theorem Settled.transact (settled : Settled tables) (txn : RefTransaction) : Settled (tables.transact txn) := by
  cases txn with
  | hold mxc x => exact settled.hold mxc x
  | release mxc x => exact settled.delHolderRows mxc x
  | swap mxc source t => exact settled.swap mxc source t
  | releaseAllOf x => exact settled.releaseAllOf x
  | swapAllOf source t => exact settled.swapAllOf source t
  | setAvatarRef userIsLocal localpart new =>
    cases userIsLocal with
    | true => exact settled.setAvatarRef (.avatar localpart) new _
    | false => exact settled
  | setRoomAvatarRef r u new => exact settled.setAvatarRef (.roomAvatar r u) new _
  | releaseRoom r => exact settled.releaseRoom r
  | forgetMedia mxc => exact settled.forgetMedia mxc

/-! ## What the tables say -/

structure Tables.Exact (tables : Tables) : Prop where
  paired : ∀ (holder : Holder) mxc, tables.mxcHolder.find (holder.mxcHolderKey mxc) = some () ↔
    tables.holderMxc.find (holder.holderMxcKey mxc) = some ()
  lives : ∀ (holder : Holder) mxc room, holder.room? = some room → tables.mxcHolder.find (holder.mxcHolderKey mxc) = some () →
    tables.roomMxc.find (serializeKey [.str room, .str mxc]) = some () ∧
      tables.mxcRoom.find (serializeKey [.str mxc, .str room]) = some ()
  mirrored : ∀ room mxc, tables.roomMxc.find (serializeKey [.str room, .str mxc]) = some () ↔
    tables.mxcRoom.find (serializeKey [.str mxc, .str room]) = some ()
  hasHolders_iff : ∀ mxc, tables.hasHolders mxc ↔ ∃ holder : Holder, tables.mxcHolder.find (holder.mxcHolderKey mxc) = some ()

theorem Indexes.find_iff {store : Store Bytes Unit} {keyOf : Holder → String → Bytes} (indexes : Indexes store keyOf held)
    (distinct : ∀ {x o mxc b}, keyOf x mxc = keyOf o b ↔ x = o ∧ mxc = b)
    (x : Holder) (mxc : String) : store.find (keyOf x mxc) = some () ↔ held x mxc :=
  indexes.lists.find_iff (fun _ _ eq => Prod.ext_iff.mpr (distinct.mp eq)) (x, mxc)

theorem Agrees.forward_iff (ok : Agrees tables held) (x : Holder) (mxc : String) :
    tables.mxcHolder.find (x.mxcHolderKey mxc) = some () ↔ held x mxc :=
  ok.forward.find_iff mxcHolderKey_inj x mxc

theorem Agrees.reverse_iff (ok : Agrees tables held) (x : Holder) (mxc : String) :
    tables.holderMxc.find (x.holderMxcKey mxc) = some () ↔ held x mxc :=
  ok.reverse.find_iff holderMxcKey_inj x mxc

section Found

variable {rooms : String × String → Prop} (h : Sound tables held rooms)
include h

theorem Sound.roomMxc_iff (r mxc : String) :
    tables.roomMxc.find (serializeKey [.str r, .str mxc]) = some () ↔ rooms (r, mxc) :=
  h.roomMxc.find_iff pairKey_injective (r, mxc)

theorem Sound.mxcRoom_iff (r mxc : String) :
    tables.mxcRoom.find (serializeKey [.str mxc, .str r]) = some () ↔ rooms (r, mxc) :=
  h.mxcRoom.find_iff pairKey_swapped_injective (r, mxc)

theorem Sound.exact : tables.Exact := by
  refine ⟨fun x mxc => ?_, fun x mxc r there held => ?_, fun r mxc => ?_, fun mxc => ?_⟩
  · rw [h.agrees.forward_iff, h.agrees.reverse_iff]
  · have row := h.lives x mxc r ((h.agrees.forward_iff x mxc).mp held) there
    exact ⟨(h.roomMxc_iff r mxc).mpr row, (h.mxcRoom_iff r mxc).mpr row⟩
  · rw [h.roomMxc_iff, h.mxcRoom_iff]
  · simp only [hasHolders, Bool.not_eq_true', isEmpty_eq_false_iff_exists_mem, mem_rowsBeginning]
    constructor
    · rintro ⟨⟨k, ⟨⟩⟩, row, pre⟩
      obtain ⟨x, b, rfl, -⟩ := (h.agrees.forward k).mp (find_eq_some_iff.mpr row)
      obtain rfl := interfix_begins_mxcHolderKey.mp pre
      exact ⟨x, find_eq_some_iff.mpr row⟩
    · rintro ⟨x, row⟩
      exact ⟨(_, ()), find_eq_some_iff.mp row, interfix_begins_mxcHolderKey.mpr rfl⟩

end Found

/-- After any transactions, one after the other, the holder tables say the same, and no two pairs share a key. -/
theorem holderTables_exact (transactions : List RefTransaction) : (run transact .empty transactions).Exact ∧
      (∀ (holder other : Holder) (mxc second : String),
        holder.mxcHolderKey mxc = other.mxcHolderKey second ∨ holder.holderMxcKey mxc = other.holderMxcKey second →
          holder = other ∧ mxc = second) := by
  have always : Admits transact (fun _ _ => True) .empty transactions := admits_of_forall fun _ _ _ => trivial
  have settled : Along transact Settled .empty transactions :=
    along_of_keeps (fun _ txn settled _ => settled.transact txn) ⟨_, _, sound_empty⟩ always
  obtain ⟨held, rooms, sound⟩ := settled.last
  refine ⟨sound.exact, fun holder other mxc second eq => ?_⟩
  rcases eq with eq | eq
  · exact mxcHolderKey_inj.mp eq
  · exact holderMxcKey_inj.mp eq

/-! ## Neighbours -/

theorem unit_eq_none_iff {v : Option Unit} : v = none ↔ ¬v = some () := by
  cases v <;> simp

theorem Agrees.sameRows {next : Tables} {left : Holder → String → Prop} (ok : Agrees tables held)
    (after : Agrees next left) {x : Holder} (eq : ∀ mxc, left x mxc ↔ held x mxc) :
    SameRows x tables next := by
  intro mxc
  constructor
  · refine Option.ext fun _ => ?_
    rw [ok.forward_iff, after.forward_iff, eq]
  · refine Option.ext fun _ => ?_
    rw [ok.reverse_iff, after.reverse_iff, eq]

/-- A deleted room takes its own holders with it and nobody else's, and every media that lost its last one is handed to
the collector. -/
theorem releaseRoom_exact (settled : Settled tables) (room : String) :
    (∀ (holder : Holder) mxc, holder.room? = some room →
      (tables.releaseRoom room).mxcHolder.find (holder.mxcHolderKey mxc) = none ∧
        (tables.releaseRoom room).holderMxc.find (holder.holderMxcKey mxc) = none) ∧
    (∀ mxc, (tables.releaseRoom room).roomMxc.find (serializeKey [.str room, .str mxc]) = none ∧
      (tables.releaseRoom room).mxcRoom.find (serializeKey [.str mxc, .str room]) = none) ∧
    (∀ holder : Holder, holder.room? ≠ some room → SameRows holder tables (tables.releaseRoom room)) ∧
    ∀ mxc, tables.hasHolders mxc → ¬(tables.releaseRoom room).hasHolders mxc → mxc ∈ tables.roomMedia room := by
  obtain ⟨held, rooms, sound⟩ := settled
  have after := sound.releaseRoom room
  have kept (holder : Holder) (away : holder.room? ≠ some room) : SameRows holder tables (tables.releaseRoom room) := by
    refine sound.agrees.sameRows after.agrees fun mxc => ?_
    simp [away]
  refine ⟨fun holder mxc there => ?_, fun mxc => ?_, kept, fun mxc old gone => ?_⟩
  · simp only [unit_eq_none_iff, after.agrees.forward_iff, after.agrees.reverse_iff]
    simp [there]
  · simp only [unit_eq_none_iff, after.roomMxc_iff, after.mxcRoom_iff]
    simp
  · obtain ⟨holder, row⟩ := (sound.exact.hasHolders_iff mxc).mp old
    by_cases there : holder.room? = some room
    · have h := (sound.agrees.forward_iff holder mxc).mp row
      exact sound.mem_roomMedia.mpr (sound.lives holder mxc room h there)
    · have row := ((kept holder there mxc).1).trans row
      exact absurd ((after.exact.hasHolders_iff mxc).mpr ⟨holder, row⟩) gone

/-- The room's own media is handed over; what a room with a longer id holds stays. -/
theorem releaseRoom_exact_of_longer :
    let tables := (empty.hold "mxc://a/b" (.event "!room:a" 1)).hold "mxc://a/c" (.event "!room" 2)
    SameRows (.event "!room:a" 1) tables (tables.releaseRoom "!room") ∧
      (tables.releaseRoom "!room").mxcHolder.find ((event "!room" 2).mxcHolderKey "mxc://a/c") = none ∧
      "mxc://a/c" ∈ tables.roomMedia "!room" := by
  intro tables
  have start : Settled empty := ⟨_, _, sound_empty⟩
  have settled : Settled tables := (start.hold _ _).hold _ _
  have released := releaseRoom_exact settled "!room"
  exact ⟨released.2.2.1 _ (by decide), (released.1 (.event "!room" 2) "mxc://a/c" rfl).1,
    released.2.2.2 "mxc://a/c" (by decide +kernel) (by decide +kernel)⟩

/-- The holders whose rows an avatar holder's prefix begins: its own, and those of every longer name. An avatar holder
is one that begins itself. -/
def Holder.Begins : Holder → Holder → Prop
  | .avatar localpart, .avatar other => utf8 localpart <+: utf8 other
  | .roomAvatar room user, .roomAvatar place other => room = place ∧ utf8 user <+: utf8 other
  | _, _ => False

def Tables.avatarReleased (tables : Tables) (holder : Holder) (new : Option String) : List String :=
  (tables.listMxcsOf holder).filter (some · ≠ new)

/-- `set_avatar_ref`: nothing for a user of another server. -/
def Tables.profileAvatarReleased (tables : Tables) (userIsLocal : Bool) (localpart : String) (new : Option String) :
    List String :=
  if userIsLocal then tables.avatarReleased (.avatar localpart) new else []

theorem Holder.listPrefixKey_begins_iff {holder o : Holder} {mxc : String} (own : holder.Begins holder) :
    holder.listPrefixKey <+: o.holderMxcKey mxc ↔ holder.Begins o := by
  cases holder with
  | event r gSeq => exact own.elim
  | backup r gSeq => exact own.elim
  | avatar localpart =>
    have pre (o : String) := @utf8_begins_pairKey localpart o mxc
    cases o <;> simp_all [listPrefixKey, holderMxcKey, kind, Element.encode, str_begins_iff, Begins, pairKey_eq]
  | roomAvatar r u =>
    have pre (o : String) := @utf8_begins_pairKey u o mxc
    cases o <;> simp_all [listPrefixKey, holderMxcKey, kind, Element.encode, str_begins_iff, Begins, pairKey_eq]

theorem Holder.Begins.mxcOfKey {x o : Holder} (pre : x.Begins o) (mxc : String) :
    fromSlice x.mxcOfKey (o.holderMxcKey mxc) = some mxc := by
  cases x <;> cases o <;> simp only [Begins] at pre
  case avatar.avatar localpart o =>
    have reads := fromSlice_strAfter_text (clean_texts ["a", o]) mxc
    simpa [closed, Holder.mxcOfKey, holderMxcKey, kind, Element.encode] using reads
  case roomAvatar.roomAvatar r u place o =>
    have reads := fromSlice_strAfter_text (clean_texts ["r", place, o]) mxc
    simpa [closed, Holder.mxcOfKey, holderMxcKey, kind, Element.encode] using reads

/-- The holder ends with `new` and everyone else with what they had. What is handed to the collector was held under the
holder's name or a longer one. -/
structure AvatarUpdate (held : Holder → String → Prop) (after : Tables) (handed : List String) (holder : Holder)
    (new : Option String) : Prop where
  agrees : Agrees after fun other mxc => if other = holder then some mxc = new else held other mxc
  mem_handed : ∀ mxc, mxc ∈ handed ↔ some mxc ≠ new ∧ ∃ other, holder.Begins other ∧ held other mxc

theorem Agrees.avatarUpdate (ok : Agrees tables held) {holder : Holder} (own : holder.Begins holder) (new : Option String) :
    AvatarUpdate held (tables.setAvatarRef holder new (tables.listMxcsOf holder)) (tables.avatarReleased holder new) holder
      new := by
  have handed (mxc : String) : mxc ∈ tables.avatarReleased holder new ↔
      some mxc ≠ new ∧ ∃ o, holder.Begins o ∧ held o mxc := by
    simp only [avatarReleased, mem_filter, decide_eq_true_eq, ok.mem_listMxcsOf, listPrefixKey_begins_iff own]
    constructor
    · rintro ⟨⟨o, b, h, pre, reads⟩, differs⟩
      obtain rfl := Option.some.inj ((pre.mxcOfKey b).symm.trans reads)
      exact ⟨differs, o, pre, h⟩
    · rintro ⟨differs, o, pre, h⟩
      exact ⟨⟨o, mxc, h, pre, pre.mxcOfKey mxc⟩, differs⟩
  have dropped : Agrees ((tables.avatarReleased holder new).foldl (fun next mxc => next.delHolderRows mxc holder) tables)
      fun o mxc => (o = holder → some mxc = new) ∧ held o mxc := by
    refine (ok.releases holder _).congr fun o mxc => ?_
    rw [handed]
    constructor
    · rintro ⟨kept, h⟩
      refine ⟨?_, h⟩
      rintro rfl
      exact not_not.mp fun differs => kept ⟨rfl, differs, o, own, h⟩
    · rintro ⟨only, h⟩
      exact ⟨fun lost => lost.2.1 (only lost.1), h⟩
  refine ⟨?_, handed⟩
  cases new with
  | none =>
    refine dropped.congr fun o mxc => ?_
    by_cases eq : o = holder <;> simp [eq]
  | some mxc =>
    refine (dropped.hold mxc holder).congr fun o b => ?_
    by_cases eq : o = holder <;> simp [eq, holdsAfter]
    tauto

/-- Only what the holder itself held is handed over. -/
structure OwnUpdate (held : Holder → String → Prop) (after : Tables) (handed : List String) (holder : Holder)
    (new : Option String) : Prop where
  agrees : Agrees after fun other mxc => if other = holder then some mxc = new else held other mxc
  mem_handed : ∀ mxc, mxc ∈ handed ↔ some mxc ≠ new ∧ held holder mxc

/-- No holder of a longer name holds other media than the holder itself. -/
def Unshadowed (held : Holder → String → Prop) (holder : Holder) (new : Option String) : Prop :=
  ∀ other mxc, holder.Begins other → held other mxc → some mxc ≠ new → held holder mxc

theorem AvatarUpdate.own_iff {after : Tables} {handed : List String} {holder : Holder} {new : Option String}
    (update : AvatarUpdate held after handed holder new) (own : holder.Begins holder) :
    OwnUpdate held after handed holder new ↔ Unshadowed held holder new := by
  constructor
  · intro only other mxc longer holds differs
    exact ((only.mem_handed mxc).mp ((update.mem_handed mxc).mpr ⟨differs, other, longer, holds⟩)).2
  · refine fun unshadowed => ⟨update.agrees, fun mxc => (update.mem_handed mxc).trans (and_congr_right fun differs => ?_)⟩
    exact ⟨fun ⟨other, longer, holds⟩ => unshadowed other mxc longer holds differs, fun holds => ⟨holder, own, holds⟩⟩

theorem Agrees.held_unique {other : Holder → String → Prop} (ok : Agrees tables held) (ok' : Agrees tables other)
    (holder : Holder) (mxc : String) : held holder mxc ↔ other holder mxc := by
  rw [← ok.forward_iff, ← ok'.forward_iff]

/-- A user of another server: nothing happens, so nothing was to happen. -/
theorem Agrees.own_iff_of_remote (ok : Agrees tables held) (holder : Holder) (new : Option String) :
    OwnUpdate held tables [] holder new ↔ ∀ mxc, held holder mxc ↔ some mxc = new := by
  constructor
  · intro only mxc
    have same := ok.held_unique only.agrees holder mxc
    rwa [if_pos rfl] at same
  · refine fun same => ⟨ok.congr fun other mxc => ?_, fun mxc => ?_⟩
    · split
      next eq => rw [eq, same]
      · rfl
    · simp [same]

/-- An update of a profile's avatar, or of a member's in a room, leaves the holder with `new` and everyone else with what
they had. It hands over just what the holder held if no longer name holds other media; for a user of another server, if
nothing was to do. -/
theorem avatar_updates (agrees : Agrees tables held) (localpart room user : String) (new : Option String) :
    AvatarUpdate held (tables.setProfileAvatarRef true localpart new) (tables.profileAvatarReleased true localpart new)
      (.avatar localpart) new ∧
    (tables.setProfileAvatarRef false localpart new = tables ∧ tables.profileAvatarReleased false localpart new = []) ∧
    AvatarUpdate held (tables.setRoomAvatarRef room user new) (tables.avatarReleased (.roomAvatar room user) new)
      (.roomAvatar room user) new ∧
    (∀ userIsLocal, OwnUpdate held (tables.setProfileAvatarRef userIsLocal localpart new)
        (tables.profileAvatarReleased userIsLocal localpart new) (.avatar localpart) new ↔
      if userIsLocal then Unshadowed held (.avatar localpart) new
      else ∀ mxc, held (.avatar localpart) mxc ↔ some mxc = new) ∧
    (OwnUpdate held (tables.setRoomAvatarRef room user new) (tables.avatarReleased (.roomAvatar room user) new)
      (.roomAvatar room user) new ↔ Unshadowed held (.roomAvatar room user) new) := by
  have profile : (avatar localpart).Begins (.avatar localpart) := prefix_rfl
  have member : (roomAvatar room user).Begins (.roomAvatar room user) := ⟨rfl, prefix_rfl⟩
  have update := agrees.avatarUpdate profile new
  have update' := agrees.avatarUpdate member new
  refine ⟨update, ⟨rfl, rfl⟩, update', fun userIsLocal => ?_, update'.own_iff member⟩
  cases userIsLocal with
  | true => exact update.own_iff profile
  | false => exact agrees.own_iff_of_remote (.avatar localpart) new

/-- Beside the avatar of `bob`, who is not named after `alice`. -/
theorem avatar_updates_of_alice :
    let held := holdsAfter (holdsAfter (fun _ _ => False) (.hold "mxc://a/b" (.avatar "alice"))) (.hold "mxc://a/c" (.avatar "bob"))
    let tables := (empty.hold "mxc://a/b" (.avatar "alice")).hold "mxc://a/c" (.avatar "bob")
    OwnUpdate held (tables.setProfileAvatarRef true "alice" (some "mxc://a/d"))
      (tables.profileAvatarReleased true "alice" (some "mxc://a/d")) (.avatar "alice") (some "mxc://a/d") := by
  intro held tables
  have agrees : Agrees tables held := (agrees_empty.hold _ _).hold _ _
  refine ((avatar_updates agrees "alice" "!r" "@u:a" (some "mxc://a/d")).2.2.2.1 true).mpr ?_
  rintro other mxc longer (⟨rfl, rfl⟩ | holds) -
  · exact absurd longer (show ¬utf8 "alice" <+: utf8 "bob" by decide)
  · obtain ⟨rfl, rfl⟩ := holds.resolve_right id
    exact .inr holds

/-- The media of `alice2` is handed over with an update of `alice`, whose own one a namesake elsewhere does not touch. -/
theorem avatar_update_of_alice :
    (empty.hold "mxc://a/b" (.avatar "alice2")).profileAvatarReleased true "alice" none = ["mxc://a/b"] ∧
    (empty.hold "mxc://a/b" (.avatar "alice")).profileAvatarReleased false "alice" none = [] ∧
    (empty.hold "mxc://a/b" (.avatar "alice")).setProfileAvatarRef false "alice" none =
      empty.hold "mxc://a/b" (.avatar "alice") := by
  refine ⟨?_, rfl, rfl⟩
  decide

end Wbfuwunel.MediaRefs
