import Wbfuwunel.Foundation.Runs
import Wbfuwunel.MediaRefs.Holder

/-! What a holder is said to hold, against what was held and released.

The rows are exact for every position. Reading one back skips the position like a string, up to the next separator
byte, so the listing is exact for the positions that contain no such byte, and for no other.
-/

set_option autoImplicit false

namespace Wbfuwunel.MediaRefs

open Foundation Database List Store Tables Holder Element

/-! ## Keys -/

@[simp] theorem biasGSeq_inj {a b : Int64} : biasGSeq a = biasGSeq b ↔ a = b := by
  refine ⟨fun eq => ?_, fun eq => eq ▸ rfl⟩
  have equal : a - Int64.minValue = b - Int64.minValue := Int64.toBitVec_inj.mp (congrArg UInt64.toBitVec eq)
  exact (Int64.sub_left_inj _).mp equal

namespace Holder

variable {x o : Holder} {mxc room : String} {gSeq : Int64}

theorem mxcHolderKey_inj {b : String} : x.mxcHolderKey mxc = o.mxcHolderKey b ↔ x = o ∧ mxc = b := by
  cases x <;> cases o <;> simp [mxcHolderKey, kind, encode, str_eq_iff] <;> tauto

theorem holderMxcKey_inj {b : String} : x.holderMxcKey mxc = o.holderMxcKey b ↔ x = o ∧ mxc = b := by
  have pos : ∀ one two : UInt64, toBeBytes64 one ++ SEP :: utf8 mxc = toBeBytes64 two ++ SEP :: utf8 b ↔
      one = two ∧ mxc = b := by
    intro one two
    -- A position may contain separator bytes; what keeps keys apart is its fixed width.
    refine ⟨fun eq => ?_, by rintro ⟨rfl, rfl⟩; rfl⟩
    simpa using append_inj eq (by simp)
  cases x <;> cases o <;> simp [holderMxcKey, kind, encode, str_eq_iff, pos] <;> tauto

theorem interfix_begins_mxcHolderKey {o : String} :
    serializeKey [.str mxc, .interfix] <+: x.mxcHolderKey o ↔ mxc = o := by
  cases x <;> simp [mxcHolderKey, encode, str_begins_iff]

inductive Positioned : Holder → String → Int64 → Prop where
  | event (room : String) (gSeq : Int64) : Positioned (.event room gSeq) room gSeq
  | backup (room : String) (gSeq : Int64) : Positioned (.backup room gSeq) room gSeq

variable (positioned : Positioned x room gSeq)
include positioned

theorem Positioned.listPrefixKey_begins : x.listPrefixKey <+: o.holderMxcKey mxc ↔ x = o := by
  have pos : ∀ one two : UInt64, toBeBytes64 one <+: toBeBytes64 two ++ SEP :: utf8 mxc ↔ one = two := by
    intro one two
    have fields := @field_begins_iff (toBeBytes64 one) (toBeBytes64 two) [] (SEP :: utf8 mxc) (by simp)
    simpa using fields
  cases positioned <;> cases o <;>
    simp [listPrefixKey, holderMxcKey, kind, encode, str_begins_iff, pos]

theorem Positioned.mxcOfKey_eq {skipped after : Bytes} (clean : SEP ∉ skipped)
    (splits : toBeBytes64 (biasGSeq gSeq) ++ SEP :: utf8 mxc = skipped ++ SEP :: after) :
    fromSlice x.mxcOfKey (x.holderMxcKey mxc) = ofUtf8 (after.takeWhile (· ≠ SEP)) := by
  have records : ∀ record ∈ [utf8 x.kind, utf8 room, skipped], SEP ∉ record := by
    simp only [mem_cons, not_mem_nil, or_false]
    rintro record (rfl | rfl | rfl)
    · exact separator_not_mem_utf8 _
    · exact separator_not_mem_utf8 _
    · exact clean
  have k : x.holderMxcKey mxc = De.closed [utf8 x.kind, utf8 room, skipped] after := by
    cases positioned <;> simp [holderMxcKey, encode, De.closed, ← splits]
  have reads : fromSlice (De.strAfter 3) _ = ofUtf8 (after.takeWhile (· ≠ SEP)) := De.fromSlice_strAfter records
  cases positioned <;> exact k ▸ reads

theorem Positioned.mxcOfKey_clean (clean : SEP ∉ toBeBytes64 (biasGSeq gSeq)) :
    fromSlice x.mxcOfKey (x.holderMxcKey mxc) = some mxc := by
  rw [positioned.mxcOfKey_eq clean rfl]
  exact De.ofUtf8_takeWhile mxc

/-- With a separator byte in the position, what is read is a piece of the position. -/
theorem Positioned.mxcOfKey_short {read : String} (dirty : SEP ∈ toBeBytes64 (biasGSeq gSeq))
    (got : fromSlice x.mxcOfKey (x.holderMxcKey mxc) = some read) : (utf8 read).length < 8 := by
  obtain ⟨skipped, behind, splits, clean⟩ := eq_append_cons_of_mem dirty
  have rest : toBeBytes64 (biasGSeq gSeq) ++ SEP :: utf8 mxc = skipped ++ SEP :: (behind ++ SEP :: utf8 mxc) := by
    rw [splits, append_assoc, cons_append]
  -- The text read lies between the first separator of the position and the next one.
  rw [positioned.mxcOfKey_eq clean rest] at got
  have k : behind.length < 8 := by
    have width := congrArg List.length splits
    simp at width
    omega
  rw [utf8_of_ofUtf8 got]
  exact lt_of_le_of_lt (takeWhile_begins behind (utf8 mxc)).length_le k

end Holder

/-! ## The rows against the history -/

inductive RefOp where
  | hold (mxc : String) (holder : Holder)
  | release (mxc : String) (holder : Holder)
  | swap (mxc : String) (source target : Holder)

def Tables.step (tables : Tables) : RefOp → Tables
  | .hold mxc holder => tables.hold mxc holder
  | .release mxc holder => tables.release mxc holder
  | .swap mxc source target => tables.swap mxc source target

def holdsAfter (held : Holder → String → Prop) : RefOp → Holder → String → Prop
  | .hold mxc holder => fun other second => other = holder ∧ second = mxc ∨ held other second
  | .release mxc holder => fun other second => ¬(other = holder ∧ second = mxc) ∧ held other second
  | .swap mxc source target => fun other second =>
    other = target ∧ second = mxc ∨ ¬(other = source ∧ second = mxc) ∧ held other second

def held (ops : List RefOp) : Holder → String → Prop := run holdsAfter (fun _ _ => False) ops

def Indexes (store : Store Bytes Unit) (keyOf : Holder → String → Bytes) (held : Holder → String → Prop) : Prop :=
  ∀ key, store.find key = some () ↔ ∃ holder mxc, key = keyOf holder mxc ∧ held holder mxc

section Indexes

variable {store : Store Bytes Unit} {keyOf : Holder → String → Bytes} {held : Holder → String → Prop}
  (indexes : Indexes store keyOf held)
include indexes

theorem Indexes.lists :
    store.Lists (fun fact : Holder × String => keyOf fact.1 fact.2) fun fact => held fact.1 fact.2 := by
  simpa [Store.Lists, Indexes] using indexes

theorem Indexes.put (mxc : String) (x : Holder) :
    Indexes (store.put (keyOf x mxc) ()) keyOf (holdsAfter held (.hold mxc x)) := by
  intro k
  simpa [holdsAfter] using indexes.lists.put (x, mxc) k

theorem Indexes.del (distinct : ∀ {x o mxc b}, keyOf x mxc = keyOf o b ↔ x = o ∧ mxc = b) (mxc : String) (x : Holder) :
    Indexes (store.del (keyOf x mxc)) keyOf (holdsAfter held (.release mxc x)) := by
  intro k
  have apart : Function.Injective fun fact : Holder × String => keyOf fact.1 fact.2 :=
    fun _ _ eq => Prod.ext_iff.mpr (distinct.mp eq)
  simpa [holdsAfter] using indexes.lists.del apart (x, mxc) k

end Indexes

structure Agrees (tables : Tables) (held : Holder → String → Prop) : Prop where
  forward : Indexes tables.mxcHolder mxcHolderKey held
  reverse : Indexes tables.holderMxc holderMxcKey held

theorem agrees_empty : Agrees .empty fun _ _ => False := by
  constructor <;> simp [Indexes, Tables.empty]

variable {tables : Tables} {holder : Holder}

section

variable {held : Holder → String → Prop}

theorem Agrees.congr {left : Holder → String → Prop} (ok : Agrees tables held)
    (eq : ∀ holder mxc, held holder mxc ↔ left holder mxc) : Agrees tables left := by
  obtain rfl : held = left := funext₂ fun holder mxc => propext (eq holder mxc)
  exact ok

theorem Agrees.hold (ok : Agrees tables held) (mxc : String) (holder : Holder) :
    Agrees (tables.hold mxc holder) (holdsAfter held (.hold mxc holder)) where
  forward := ok.forward.put mxc holder
  reverse := ok.reverse.put mxc holder

theorem Agrees.delHolderRows (ok : Agrees tables held) (mxc : String)
    (holder : Holder) : Agrees (tables.delHolderRows mxc holder) (holdsAfter held (.release mxc holder)) where
  forward := ok.forward.del mxcHolderKey_inj mxc holder
  reverse := ok.reverse.del holderMxcKey_inj mxc holder

theorem Agrees.step (ok : Agrees tables held) (op : RefOp) : Agrees (tables.step op) (holdsAfter held op) := by
  cases op with
  | hold mxc holder => exact ok.hold mxc holder
  | release mxc holder => exact ok.delHolderRows mxc holder
  | swap mxc source t => exact (ok.delHolderRows mxc source).hold mxc t

theorem Agrees.run (ok : Agrees tables held) (ops : List RefOp) :
    Agrees (run Tables.step tables ops) (run holdsAfter held ops) := by
  induction ops generalizing tables held with
  | nil => exact ok
  | cons op ops ih => exact ih (ok.step op)

/-! ## Everything of one holder -/

theorem Agrees.mem_listMxcsOf (ok : Agrees tables held) {mxc : String} :
    mxc ∈ tables.listMxcsOf holder ↔ ∃ o b, held o b ∧
      holder.listPrefixKey <+: o.holderMxcKey b ∧ fromSlice holder.mxcOfKey (o.holderMxcKey b) = some mxc := by
  simp only [listMxcsOf, mem_filterMap, mem_rowsBeginning]
  constructor
  · rintro ⟨⟨k, ⟨⟩⟩, ⟨row, pre⟩, reads⟩
    obtain ⟨o, b, rfl, holds⟩ := (ok.reverse k).mp (find_eq_some_iff.mpr row)
    exact ⟨o, b, holds, pre, reads⟩
  · rintro ⟨o, b, holds, pre, reads⟩
    have row := (ok.reverse _).mpr ⟨o, b, rfl, holds⟩
    exact ⟨(_, ()), ⟨find_eq_some_iff.mp row, pre⟩, reads⟩

/-- The listing is the media held; releasing and moving all of the holder's media leave out none. -/
structure Complete (tables : Tables) (held : Holder → String → Prop) (holder : Holder) : Prop where
  listed : ∀ mxc, mxc ∈ tables.listMxcsOf holder ↔ held holder mxc
  released : Agrees (tables.releaseAllOf holder) fun other mxc => other ≠ holder ∧ held other mxc
  moved : ∀ target, Agrees (tables.swapAllOf holder target) fun other mxc =>
    other = target ∧ held holder mxc ∨ other ≠ holder ∧ held other mxc

theorem swapAllOf_eq_run (tables : Tables) (source t : Holder) :
    tables.swapAllOf source t = run step tables ((tables.listMxcsOf source).map (.swap · source t)) := by
  rw [run, foldl_map]
  rfl

theorem held_after_releases (held : Holder → String → Prop) (holder : Holder) (mxcs : List String) :
    run holdsAfter held (mxcs.map (.release · holder)) = fun o mxc =>
      ¬(o = holder ∧ mxc ∈ mxcs) ∧ held o mxc := by
  induction mxcs generalizing held with
  | nil => simp
  | cons a mxcs ih =>
    rw [map_cons, run_cons, ih]
    funext o mxc
    simp only [holdsAfter, mem_cons, eq_iff_iff]
    tauto

theorem Agrees.releases (ok : Agrees tables held) (holder : Holder) (mxcs : List String) :
    Agrees (mxcs.foldl (fun next mxc => next.delHolderRows mxc holder) tables) fun o mxc =>
      ¬(o = holder ∧ mxc ∈ mxcs) ∧ held o mxc := by
  have releases := ok.run (mxcs.map (.release · holder))
  rw [held_after_releases, Foundation.run, foldl_map] at releases
  exact releases

theorem held_after_swaps (held : Holder → String → Prop) (source t : Holder) (mxcs : List String) :
    run holdsAfter held (mxcs.map (.swap · source t)) = fun o mxc =>
      o = t ∧ mxc ∈ mxcs ∨ ¬(o = source ∧ mxc ∈ mxcs) ∧ held o mxc := by
  induction mxcs generalizing held with
  | nil => simp
  | cons a mxcs ih =>
    rw [map_cons, run_cons, ih]
    funext o mxc
    simp only [holdsAfter, mem_cons, eq_iff_iff]
    tauto

theorem Agrees.complete (ok : Agrees tables held)
    (listed : ∀ mxc, mxc ∈ tables.listMxcsOf holder ↔ held holder mxc) : Complete tables held holder where
  listed := listed
  released := by
    -- The listing is what is held, so the releases leave the holder nothing.
    refine (ok.releases holder (tables.listMxcsOf holder)).congr fun o mxc => ?_
    rw [listed]
    by_cases eq : o = holder <;> simp [eq]
  moved t := by
    have swaps := ok.run ((tables.listMxcsOf holder).map (.swap · holder t))
    rw [← swapAllOf_eq_run, held_after_swaps] at swaps
    refine swaps.congr fun o mxc => ?_
    rw [listed]
    by_cases eq : o = holder <;> simp [eq]

end

/-! ## Everyone else -/

def SameRows (holder : Holder) (first second : Tables) : Prop := ∀ mxc,
  second.mxcHolder.find (holder.mxcHolderKey mxc) = first.mxcHolder.find (holder.mxcHolderKey mxc) ∧
    second.holderMxc.find (holder.holderMxcKey mxc) = first.holderMxc.find (holder.holderMxcKey mxc)

namespace SameRows

variable {holder : Holder}

theorem refl (tables : Tables) : SameRows holder tables tables := fun _ => ⟨rfl, rfl⟩

theorem trans {a b third : Tables} (old : SameRows holder a b)
    (after : SameRows holder b third) : SameRows holder a third := fun mxc =>
  ⟨(after mxc).1.trans (old mxc).1, (after mxc).2.trans (old mxc).2⟩

theorem hold (tables : Tables) (mxc : String) {o : Holder} (ne : holder ≠ o) :
    SameRows holder tables (tables.hold mxc o) := by
  intro b
  constructor
  · exact find_put_of_ne _ _ fun eq => ne (mxcHolderKey_inj.mp eq).1
  · exact find_put_of_ne _ _ fun eq => ne (holderMxcKey_inj.mp eq).1

theorem delHolderRows (tables : Tables) (mxc : String) {o : Holder} (ne : holder ≠ o) :
    SameRows holder tables (tables.delHolderRows mxc o) := by
  intro b
  constructor
  · exact find_del_of_ne _ fun eq => ne (mxcHolderKey_inj.mp eq).1
  · exact find_del_of_ne _ fun eq => ne (holderMxcKey_inj.mp eq).1

theorem swap (tables : Tables) (mxc : String) {source t : Holder} (ne : holder ≠ source)
    (ne' : holder ≠ t) : SameRows holder tables (tables.swap mxc source t) :=
  (delHolderRows tables mxc ne).trans (hold _ mxc ne')

theorem foldl {write : Tables → String → Tables} (keeps : ∀ tables mxc, SameRows holder tables (write tables mxc))
    (tables : Tables) (mxcs : List String) : SameRows holder tables (mxcs.foldl write tables) := by
  induction mxcs generalizing tables with
  | nil => exact refl tables
  | cons mxc mxcs ih => exact (keeps tables mxc).trans (ih (write tables mxc))

end SameRows

theorem agrees_run (ops : List RefOp) : Agrees (run step .empty ops) (held ops) := agrees_empty.run ops

theorem Holder.Positioned.complete_iff {r : String} {gSeq : Int64} (positioned : holder.Positioned r gSeq) :
    (∀ ops, Complete (run step .empty ops) (held ops) holder) ↔ SEP ∉ toBeBytes64 (biasGSeq gSeq) := by
  constructor
  · intro complete dirty
    -- one medium, longer than any piece of a position
    have ls := (complete [.hold "mxc://a/b" holder]).listed "mxc://a/b"
    have h : held [.hold "mxc://a/b" holder] holder "mxc://a/b" := .inl ⟨rfl, rfl⟩
    obtain ⟨o, b, -, pre, reads⟩ := (agrees_run _).mem_listMxcsOf.mp (ls.mpr h)
    obtain rfl := positioned.listPrefixKey_begins.mp pre
    have k := positioned.mxcOfKey_short dirty reads
    exact absurd k (by decide)
  · intro clean ops
    refine (agrees_run ops).complete fun mxc => ?_
    rw [(agrees_run ops).mem_listMxcsOf]
    simp [positioned.listPrefixKey_begins, positioned.mxcOfKey_clean clean]

/-- Listing, releasing and moving an event's media, or those of its retained original, is exact in every history
just when the biased position has no separator byte. -/
theorem media_of_event_complete_iff (room : String) (gSeq : Int64) :
    ((∀ ops, Complete (run step .empty ops) (held ops) (.event room gSeq)) ↔ SEP ∉ toBeBytes64 (biasGSeq gSeq)) ∧
    ((∀ ops, Complete (run step .empty ops) (held ops) (.backup room gSeq)) ↔ SEP ∉ toBeBytes64 (biasGSeq gSeq)) :=
  ⟨(Holder.Positioned.event room gSeq).complete_iff, (Holder.Positioned.backup room gSeq).complete_iff⟩

/-- Position 255: the medium is held, and an empty name is listed in its place. -/
theorem listMxcsOf_position_255 :
    let ops : List RefOp := [.hold "mxc://wbf.example/photo" (.event "!lobby:wbf.example" 255)]
    held ops (.event "!lobby:wbf.example" 255) "mxc://wbf.example/photo" ∧
      (run step .empty ops).listMxcsOf (.event "!lobby:wbf.example" 255) = [""] := by
  refine ⟨.inl ⟨rfl, rfl⟩, ?_⟩
  decide

end Wbfuwunel.MediaRefs
