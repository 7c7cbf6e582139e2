import Wbfuwunel.Foundation.Bytes

/-! The record codec of the database: `ser.rs` and `de.rs`.

A key is a tuple of records with `SEP` between every pair. Strings stand as they are, integers as their big-endian
bytes at fixed width. Debug assertions are not part of the model: it is the release build that stores and reads.
-/

set_option autoImplicit false

namespace Wbfuwunel.Database

open Foundation List

def SEP : UInt8 := 0xFF

/-! ## Writing -/

inductive Element where
  | str (text : String)
  | bytes (content : Bytes)
  | u32 (value : UInt32)
  | u64 (value : UInt64)
  | i64 (value : Int64)
  | none
  | interfix
  deriving DecidableEq

structure Serializer where
  out : Bytes
  sep : Bool

namespace Serializer

variable (serializer : Serializer)

def recordStart : Serializer :=
  { out := if serializer.sep then serializer.out ++ [SEP] else serializer.out, sep := true }

def write (content : Bytes) : Serializer :=
  { serializer with out := serializer.out ++ content }

def serialize : Element → Serializer
  | .str text => serializer.write (utf8 text)
  | .bytes content => serializer.write content
  -- An integer has a fixed width and asks for no separator behind it; a tuple puts one all the same.
  | .u32 value => { serializer.write (toBeBytes32 value) with sep := false }
  | .u64 value => { serializer.write (toBeBytes64 value) with sep := false }
  | .i64 value => { serializer.write (toBeBytes64 value.toUInt64) with sep := false }
  | .none => serializer
  | .interfix => serializer

def serializeElement (element : Element) : Serializer :=
  { serializer.recordStart.serialize element with sep := true }

end Serializer

open Serializer

def serializeKey (elements : List Element) : Bytes :=
  (elements.foldl serializeElement { out := [], sep := false }).out

def Element.encode : Element → Bytes
  | .str text => utf8 text
  | .bytes content => content
  | .u32 value => toBeBytes32 value
  | .u64 value => toBeBytes64 value
  | .i64 value => toBeBytes64 value.toUInt64
  | .none | .interfix => []

theorem serializeElement_out (serializer : Serializer) (x : Element) : serializer.serializeElement x =
      { out := (if serializer.sep then serializer.out ++ [SEP] else serializer.out) ++ x.encode, sep := true } := by
  cases x <;> simp [serializeElement, recordStart, serialize, write, Element.encode]

theorem foldl_serializeElement (elements : List Element) (out : Bytes) :
    (elements.foldl serializeElement { out, sep := true }).out = out ++ elements.flatMap fun x => SEP :: x.encode := by
  induction elements generalizing out with
  | nil => simp
  | cons x elements ih => simp [serializeElement_out, ih]

@[simp] theorem serializeKey_cons (element : Element) (elements : List Element) : serializeKey (element :: elements) =
      element.encode ++ elements.flatMap fun element => SEP :: element.encode := by
  simp [serializeKey, serializeElement_out, foldl_serializeElement]

variable {o : Bytes} {a b record : Bytes}

theorem record_begins_iff {rest : Bytes} (firstClean : SEP ∉ a) (secondClean : SEP ∉ b) :
    a ++ SEP :: rest <+: b ++ SEP :: o ↔ a = b ∧ rest <+: o := by
  induction a generalizing b with
  | nil =>
    cases b with
    | nil => simp
    | cons byte b =>
      have ne : SEP ≠ byte := fun eq => secondClean (eq ▸ mem_cons_self)
      simp [ne]
  | cons byte a ih =>
    cases b with
    | nil =>
      have ne : byte ≠ SEP := fun eq => firstClean (eq ▸ mem_cons_self)
      simp [ne]
    | cons head b =>
      have next := @ih b (fun mem => firstClean (mem_cons_of_mem _ mem)) (fun mem => secondClean (mem_cons_of_mem _ mem))
      simp [next, and_assoc]

theorem str_begins_iff {a b : String} {rest : Bytes} :
    utf8 a ++ SEP :: rest <+: utf8 b ++ SEP :: o ↔ a = b ∧ rest <+: o := by
  rw [record_begins_iff (separator_not_mem_utf8 a) (separator_not_mem_utf8 b), utf8_inj]

theorem utf8_begins_iff {a b : String} : utf8 a <+: utf8 b ++ SEP :: o ↔ utf8 a <+: utf8 b := by
  constructor
  · intro pre
    rcases prefix_or_prefix_of_prefix pre (prefix_append _ _) with shorter | ⟨tail, longer⟩
    · exact shorter
    · cases tail with
      | nil => exact longer ▸ by simp
      | cons byte tail =>
        rw [← longer, prefix_append_right_inj] at pre
        -- A longer text would have the separator inside.
        obtain rfl : byte = SEP := (cons_prefix_cons.mp pre).1
        have mem : SEP ∈ utf8 a := longer ▸ by simp
        exact absurd mem (separator_not_mem_utf8 a)
  · intro pre
    exact pre.trans (prefix_append _ _)

theorem str_eq_iff {a b : String} {rest : Bytes} : utf8 a ++ SEP :: rest = utf8 b ++ SEP :: o ↔ a = b ∧ rest = o := by
  constructor
  · intro eq
    obtain ⟨rfl, -⟩ := str_begins_iff.mp (eq ▸ prefix_rfl : utf8 a ++ SEP :: rest <+: utf8 b ++ SEP :: o)
    simpa using eq
  · rintro ⟨rfl, rfl⟩
    rfl

theorem record_ends_iff {rest : Bytes} (restClean : SEP ∉ rest) (otherClean : SEP ∉ o) :
    a ++ SEP :: rest <:+ b ++ SEP :: o ↔ rest = o ∧ a <:+ b := by
  rw [← reverse_prefix, ← reverse_prefix]
  simp only [reverse_append, reverse_cons, append_assoc, singleton_append]
  rw [record_begins_iff (by simpa using restClean) (by simpa using otherClean), reverse_inj]

theorem record_ends_behind_iff {old after : Bytes} (clean : SEP ∉ record) :
    record <:+ old ++ SEP :: after ↔ record <:+ after := by
  constructor
  · intro ends
    rcases suffix_or_suffix_of_suffix ends (suffix_append old (SEP :: after)) with mem | past
    · rcases suffix_cons_iff.mp mem with rfl | mem
      · exact absurd mem_cons_self clean
      · exact mem
    · exact absurd (past.subset mem_cons_self) clean
  · intro ends
    exact ends.trans ((suffix_cons SEP after).trans (suffix_append _ _))

/-! ## Reading -/

structure Deserializer where
  buf : Bytes
  pos : Nat
  record : Nat
  seq : Nat

/-- Reading either fails or advances the cursor. -/
abbrev De := StateT Deserializer Option

namespace De

def sequenceStart (len : Nat) : De Unit := modify fun cursor => { cursor with seq := len }

def recordNext : De Bytes := do
  let cursor ← get
  -- Up to the next separator byte, whatever type the record was written with.
  let record := (cursor.buf.drop cursor.pos).takeWhile (· ≠ SEP)
  set { cursor with pos := cursor.pos + record.length }
  return record

def recordTrail : De Bytes := do
  let cursor ← get
  let record := cursor.buf.drop cursor.pos
  set { cursor with pos := cursor.pos + record.length }
  return record

def recordIgnore : De Unit := do
  let cursor ← get
  if cursor.seq > 0 then
    let _ ← recordNext
  else
    let _ ← recordTrail

def recordStart : De Unit := modify fun cursor =>
  let started := cursor.pos ≠ 0 ∨ cursor.record > 0
  let inputDone := cursor.pos ≥ cursor.buf.length
  let outputDone := cursor.record ≥ cursor.seq
  let incomplete := inputDone ∧ ¬outputDone
  { cursor with
    pos := if started ∧ ¬incomplete then cursor.pos + 1 else cursor.pos
    record := cursor.record + 1 }

def str : De String := do
  let input ← recordNext
  ofUtf8 input

def u64 : De UInt64 := do
  let cursor ← get
  let bytes := slice cursor.buf cursor.pos (min (cursor.pos + 8) cursor.buf.length)
  guard (bytes.length = 8)
  set { cursor with pos := cursor.pos + 8 }
  return fromBeBytes64 bytes

def i64 : De Int64 := UInt64.toInt64 <$> u64

/-- `next_element_seed`; a tuple whose visitor still wants an element when there is none fails. -/
def element {α : Type} (seed : De α) : De α := do
  let cursor ← get
  let finished := cursor.pos ≥ cursor.buf.length
  let complete := cursor.record ≥ cursor.seq
  guard ¬(finished ∧ complete)
  recordStart
  seed

def skip : Nat → De Unit
  | 0 => pure ()
  | count + 1 => do
    element recordIgnore
    skip count

/-- The tuple of `ignored` times `Ignore` and a string. -/
def strAfter (ignored : Nat) : De String := do
  sequenceStart (ignored + 1)
  skip ignored
  element str

end De

def fromSlice {α : Type} (visitor : De α) (buf : Bytes) : Option α :=
  (visitor.run { buf, pos := 0, record := 0, seq := 0 }).map Prod.fst

/-! ## Where the cursor stands -/

theorem takeWhile_record (clean : SEP ∉ record) (after : Bytes) :
    (record ++ after).takeWhile (· ≠ SEP) = record ++ after.takeWhile (· ≠ SEP) := by
  refine takeWhile_append_of_pos fun byte mem => ?_
  simp only [decide_eq_true_eq]
  rintro rfl
  exact clean mem

theorem takeWhile_begins (old after : Bytes) : (old ++ SEP :: after).takeWhile (· ≠ SEP) <+: old := by
  rw [takeWhile_append]
  split
  · simp
  · exact takeWhile_prefix _

namespace De

def rest (cursor : Deserializer) : Bytes := cursor.buf.drop cursor.pos

def advance (cursor : Deserializer) (count : Nat) : Deserializer := { cursor with pos := cursor.pos + count }

variable {cursor : Deserializer} {after record : Bytes} {α : Type} {seq : Nat} {records : List Bytes}

theorem rest_advance {old : Bytes} (stands : rest cursor = old ++ after) : rest (advance cursor old.length) = after := by
  simp only [rest, advance] at stands ⊢
  rw [← drop_drop, stands, drop_left]

theorem run_recordNext (after : Bytes) (clean : SEP ∉ record) (ends : after = [] ∨ ∃ tail, after = SEP :: tail)
    (stands : rest cursor = record ++ after) : recordNext.run cursor = some (record, advance cursor record.length) := by
  have taken : (rest cursor).takeWhile (· ≠ SEP) = record := by
    rw [stands, takeWhile_record clean]
    rcases ends with rfl | ⟨tail, rfl⟩ <;> simp
  have reads : recordNext.run cursor =
      some ((rest cursor).takeWhile (· ≠ SEP), advance cursor ((rest cursor).takeWhile (· ≠ SEP)).length) := rfl
  rw [reads, taken]

theorem run_recordIgnore (after : Bytes) (clean : SEP ∉ record) (ends : after = [] ∨ ∃ tail, after = SEP :: tail)
    (stands : rest cursor = record ++ after) (mem : cursor.seq > 0) :
    recordIgnore.run cursor = some ((), advance cursor record.length) := by
  simp [recordIgnore, mem, run_recordNext after clean ends stands]

theorem run_element_first (seed : De α) {buf : Bytes} (wanted : seq > 0) :
    (element seed).run { buf, pos := 0, record := 0, seq } = seed.run { buf, pos := 0, record := 1, seq } := by
  simp [element, recordStart, -not_and, Nat.ne_of_gt wanted]

theorem run_element_next (seed : De α) (stands : rest cursor = SEP :: after) (started : cursor.record > 0) :
    (element seed).run cursor = seed.run { advance cursor 1 with record := cursor.record + 1 } := by
  have unread : ¬cursor.pos ≥ cursor.buf.length := by
    intro past
    rw [rest, drop_eq_nil_of_le past] at stands
    cases stands
  simp [element, recordStart, unread, started, advance]

/-- Records one after the other, each closed by a separator. -/
def closed (records : List Bytes) (after : Bytes) : Bytes := records.foldr (fun record tail => record ++ SEP :: tail) after

theorem run_str (stands : rest cursor = after) : (str.run cursor).map Prod.fst = ofUtf8 (after.takeWhile (· ≠ SEP)) := by
  have reads : str.run cursor = (ofUtf8 ((rest cursor).takeWhile (· ≠ SEP))).bind fun text =>
      some (text, advance cursor ((rest cursor).takeWhile (· ≠ SEP)).length) := rfl
  rw [reads, stands]
  cases ofUtf8 (after.takeWhile (· ≠ SEP)) <;> rfl

theorem run_skip (clean : ∀ record ∈ records, SEP ∉ record) (stands : rest cursor = SEP :: closed records after)
    (started : cursor.record > 0) (wanted : cursor.seq > 0) :
    ∃ next, (skip records.length).run cursor = some ((), next) ∧ rest next = SEP :: after ∧ next.record > 0 := by
  induction records generalizing cursor with
  | nil => exact ⟨cursor, rfl, stands, started⟩
  | cons record records ih =>
    have behind : rest { advance cursor 1 with record := cursor.record + 1 } = record ++ SEP :: closed records after :=
      rest_advance (show rest cursor = [SEP] ++ closed (record :: records) after from stands)
    have ignored := run_recordIgnore _ (clean record mem_cons_self) (.inr ⟨_, rfl⟩) behind wanted
    rw [length_cons, skip, StateT.run_bind, run_element_next _ stands started, ignored]
    exact ih (fun o mem => clean o (mem_cons_of_mem _ mem)) (rest_advance behind) (Nat.succ_pos _) wanted

theorem run_skip_start (clean : ∀ o ∈ record :: records, SEP ∉ o) (wanted : seq > 0) :
    ∃ next, (skip (record :: records).length).run { buf := closed (record :: records) after, pos := 0, record := 0, seq } =
      some ((), next) ∧ rest next = SEP :: after ∧ next.record > 0 := by
  have ignored := run_recordIgnore (SEP :: closed records after) (clean record mem_cons_self) (.inr ⟨_, rfl⟩)
    (show rest { buf := closed (record :: records) after, pos := 0, record := 1, seq } =
      record ++ SEP :: closed records after from rfl) wanted
  rw [length_cons, skip, StateT.run_bind, run_element_first _ wanted, ignored]
  refine run_skip (fun o mem => clean o (mem_cons_of_mem _ mem)) ?_ (Nat.succ_pos _) wanted
  exact @rest_advance { buf := closed (record :: records) after, pos := 0, record := 1, seq := _ } _ record rfl

theorem fromSlice_skip (tail : De α) (after : Bytes) (clean : ∀ o ∈ record :: records, SEP ∉ o) (wanted : seq > 0) :
    ∃ next, rest next = SEP :: after ∧ next.record > 0 ∧
      fromSlice (do sequenceStart seq; skip (record :: records).length; tail) (closed (record :: records) after) =
        (tail.run next).map Prod.fst := by
  obtain ⟨next, skipped, stands, started⟩ := @run_skip_start after _ _ _ clean wanted
  refine ⟨next, stands, started, ?_⟩
  have pre : fromSlice (do sequenceStart seq; skip (record :: records).length; tail) (closed (record :: records) after) =
      ((skip (record :: records).length >>= fun _ => tail).run
        { buf := closed (record :: records) after, pos := 0, record := 0, seq }).map Prod.fst := rfl
  rw [pre, StateT.run_bind, skipped]
  rfl

theorem fromSlice_strAfter (clean : ∀ record ∈ records, SEP ∉ record) :
    fromSlice (strAfter records.length) (closed records after) = ofUtf8 (after.takeWhile (· ≠ SEP)) := by
  cases records with
  | nil =>
    have pre : fromSlice (strAfter 0) after = (str.run { buf := after, pos := 0, record := 1, seq := 1 }).map Prod.fst :=
      congrArg (Option.map Prod.fst) (run_element_first str Nat.one_pos)
    exact pre.trans (run_str rfl)
  | cons record records =>
    obtain ⟨next, stands, started, reads⟩ := fromSlice_skip (element str) after clean (Nat.succ_pos (record :: records).length)
    refine reads.trans ?_
    rw [run_element_next str stands started]
    exact run_str (rest_advance (show rest next = [SEP] ++ after from stands))

theorem ofUtf8_takeWhile (text : String) : ofUtf8 ((utf8 text).takeWhile (· ≠ SEP)) = some text := by
  have whole := takeWhile_record (separator_not_mem_utf8 text) []
  rw [takeWhile_nil, append_nil] at whole
  rw [whole, ofUtf8_utf8]

theorem fromSlice_strAfter_text (clean : ∀ record ∈ records, SEP ∉ record) (text : String) :
    fromSlice (strAfter records.length) (closed records (utf8 text)) = some text :=
  (fromSlice_strAfter clean).trans (ofUtf8_takeWhile text)

variable {text : String} {v : UInt64}

theorem run_element_str_last (stands : rest cursor = SEP :: utf8 text) (started : cursor.record > 0) :
    ((element str).run cursor).map Prod.fst = some text := by
  have behind : rest { advance cursor 1 with record := cursor.record + 1 } = utf8 text :=
    rest_advance (show rest cursor = [SEP] ++ utf8 text from stands)
  rw [run_element_next str stands started, run_str behind, ofUtf8_takeWhile]

theorem run_element_str (stands : rest cursor = SEP :: (utf8 text ++ SEP :: after)) (started : cursor.record > 0) :
    ∃ next, (element str).run cursor = some (text, next) ∧ rest next = SEP :: after ∧ next.record > 0 := by
  have behind : rest { advance cursor 1 with record := cursor.record + 1 } = utf8 text ++ SEP :: after :=
    rest_advance (show rest cursor = [SEP] ++ (utf8 text ++ SEP :: after) from stands)
  have read := run_recordNext (SEP :: after) (separator_not_mem_utf8 text) (.inr ⟨after, rfl⟩) behind
  refine ⟨_, ?_, rest_advance behind, Nat.succ_pos _⟩
  rw [run_element_next str stands started, str, StateT.run_bind, read]
  simp [ofUtf8_utf8]

theorem run_u64 (stands : rest cursor = toBeBytes64 v ++ after) : u64.run cursor = some (v, advance cursor 8) := by
  have width := congrArg List.length stands
  simp only [rest, length_drop, length_append, toBeBytes64_length] at width
  have reads : slice cursor.buf cursor.pos (min (cursor.pos + 8) cursor.buf.length) = toBeBytes64 v := by
    rw [slice, show cursor.buf.drop cursor.pos = toBeBytes64 v ++ after from stands,
      show min (cursor.pos + 8) cursor.buf.length - cursor.pos = (toBeBytes64 v).length by simp; omega, take_left]
  simp [u64, reads, advance]

theorem run_element_u64 (stands : rest cursor = SEP :: toBeBytes64 v) (started : cursor.record > 0) :
    ((element u64).run cursor).map Prod.fst = some v := by
  have behind : rest { advance cursor 1 with record := cursor.record + 1 } = toBeBytes64 v ++ [] := by
    exact rest_advance (show rest cursor = [SEP] ++ toBeBytes64 v from stands)
  rw [run_element_next u64 stands started, run_u64 behind]
  rfl

end De

end Wbfuwunel.Database
