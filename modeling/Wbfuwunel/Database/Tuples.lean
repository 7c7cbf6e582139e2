import Wbfuwunel.Database.Codec

/-! Tuples of strings and integers as keys: what is written reads back, and what a prefix of strings selects.

The reader finds the end of a string at a separator byte and the end of an integer by its width. A string holds no
separator byte, an integer may hold eight of them; the cursor is in step because each field leaves it right behind its
own bytes.
-/

set_option autoImplicit false

namespace Wbfuwunel.Database

open Foundation List Element

inductive FieldKind where
  | str
  | u64
  | i64
  deriving DecidableEq, Repr

inductive Field where
  | str (text : String)
  | u64 (value : UInt64)
  | i64 (value : Int64)
  deriving DecidableEq, Repr

namespace Field

def kind : Field → FieldKind
  | .str _ => .str
  | .u64 _ => .u64
  | .i64 _ => .i64

def element : Field → Element
  | .str text => .str text
  | .u64 value => .u64 value
  | .i64 value => .i64 value

def isStr (field : Field) : Bool := field.kind = .str

end Field

def serializeTuple (fields : List Field) : Bytes := serializeKey (fields.map Field.element)

def serializePrefix (texts : List String) : Bytes := serializeKey (texts.map str ++ [.interfix])

namespace De

def field : FieldKind → De Field
  | .str => Field.str <$> str
  | .u64 => Field.u64 <$> u64
  | .i64 => Field.i64 <$> i64

def fields : List FieldKind → De (List Field)
  | [] => pure []
  | kind :: kinds => do
    let first ← element (field kind)
    let rest ← fields kinds
    return first :: rest

def tuple (kinds : List FieldKind) : De (List Field) := do
  sequenceStart kinds.length
  fields kinds

/-! ## Reading back -/

theorem run_field (c : Field) {after : Bytes} {cursor : Deserializer} (ends : after = [] ∨ ∃ tail, after = SEP :: tail)
    (stands : rest cursor = c.element.encode ++ after) :
    (field c.kind).run cursor = some (c, advance cursor c.element.encode.length) := by
  cases c with
  | str text =>
    have read := run_recordNext after (separator_not_mem_utf8 text) ends stands
    simp [field, Field.kind, str, read, Field.element, encode]
  | u64 v =>
    have read := run_u64 stands
    simp [field, Field.kind, read, Field.element, encode]
  | i64 v =>
    have read := run_u64 stands
    simp [field, Field.kind, i64, read, Field.element, encode]

variable (contents : List Field)

def behind : Bytes := contents.flatMap fun content => SEP :: content.element.encode

theorem behind_ends : behind contents = [] ∨ ∃ tail, behind contents = SEP :: tail := by
  cases contents with
  | nil => exact .inl rfl
  | cons c contents => exact .inr ⟨c.element.encode ++ behind contents, rfl⟩

theorem run_fields {cursor : Deserializer} (stands : rest cursor = behind contents) (started : cursor.record > 0) :
    ∃ last, (fields (contents.map Field.kind)).run cursor = some (contents, last) := by
  induction contents generalizing cursor with
  | nil => exact ⟨cursor, rfl⟩
  | cons c contents ih =>
    have next : rest { advance cursor 1 with record := cursor.record + 1 } = c.element.encode ++ behind contents :=
      rest_advance (show rest cursor = [SEP] ++ (c.element.encode ++ behind contents) from stands)
    have read := run_field c (behind_ends contents) next
    obtain ⟨last, reads⟩ := ih (rest_advance next) (Nat.succ_pos _)
    refine ⟨last, ?_⟩
    rw [map_cons, fields, StateT.run_bind,
      run_element_next _ (show rest cursor = SEP :: (c.element.encode ++ behind contents) from stands) started, read]
    simpa using reads

end De

theorem serializeTuple_cons (c : Field) (contents : List Field) :
    serializeTuple (c :: contents) = c.element.encode ++ De.behind contents := by
  simp [serializeTuple, De.behind, flatMap_map]

/-- Not closed, a prefix selects also what merely begins with its last text. -/
theorem pair_begins_iff {a b c d : String} {o : Bytes} :
    serializeTuple [.str a, .str b] <+: utf8 c ++ SEP :: (utf8 d ++ SEP :: o) ↔ a = c ∧ utf8 b <+: utf8 d := by
  have fields : serializeTuple [.str a, .str b] = utf8 a ++ SEP :: utf8 b := by
    simp [serializeTuple, Field.element, encode]
  rw [fields, str_begins_iff, utf8_begins_iff]

theorem fromSlice_serializeTuple (contents : List Field) :
    fromSlice (De.tuple (contents.map Field.kind)) (serializeTuple contents) = some contents := by
  cases contents with
  | nil => rfl
  | cons content contents =>
    have pre : De.rest { buf := serializeTuple (content :: contents), pos := 0, record := 1, seq := contents.length + 1 } =
        content.element.encode ++ De.behind contents := by
      rw [De.rest, drop_zero, serializeTuple_cons]
    have read := De.run_field content (De.behind_ends contents) pre
    obtain ⟨last, reads⟩ := De.run_fields contents (De.rest_advance pre) (Nat.succ_pos _)
    have opened : fromSlice (De.tuple ((content :: contents).map Field.kind)) (serializeTuple (content :: contents)) =
        ((De.fields ((content :: contents).map Field.kind)).run
          { buf := serializeTuple (content :: contents), pos := 0, record := 0, seq := contents.length + 1 }).map
            Prod.fst := by
      rw [← @List.length_map _ _ contents Field.kind]
      rfl
    rw [opened, map_cons, De.fields, StateT.run_bind, De.run_element_first _ (Nat.succ_pos _), read]
    simp [reads]

theorem eq_of_serializeTuple_eq {a b : List Field} (eq : serializeTuple a = serializeTuple b)
    (shape : a.map Field.kind = b.map Field.kind) : a = b := by
  have read := fromSlice_serializeTuple b
  rw [← shape, ← eq, fromSlice_serializeTuple a] at read
  exact Option.some.inj read

/-! ## Prefixes -/

theorem serializePrefix_cons (text : String) (texts : List String) :
    serializePrefix (text :: texts) = utf8 text ++ SEP :: serializePrefix texts := by
  cases texts <;> simp [serializePrefix, encode]

theorem behind_cons (c : Field) (contents : List Field) :
    De.behind (c :: contents) = SEP :: serializeTuple (c :: contents) := by
  rw [serializeTuple_cons]
  rfl

/-- Keys whose fields are strings where the prefix has strings. -/
theorem serializePrefix_begins_iff (texts : List String) {contents : List Field} (some : contents ≠ [])
    (strings : ∀ content ∈ contents.take texts.length, content.isStr) :
    serializePrefix texts <+: serializeTuple contents ↔
      texts.length < contents.length ∧ contents.take texts.length = texts.map Field.str := by
  induction texts generalizing contents with
  | nil => simp [serializePrefix, encode, length_pos_iff, some]
  | cons text texts ih =>
    obtain ⟨content, others, rfl⟩ := exists_cons_of_ne_nil some
    obtain ⟨own, rfl⟩ : ∃ own, content = .str own := by
      have kind := strings content (by simp)
      cases content with
      | str own => exact ⟨own, rfl⟩
      | u64 v => cases kind
      | i64 v => cases kind
    rw [serializePrefix_cons, serializeTuple_cons]
    cases others with
    | nil =>
      -- The prefix closes its last string with a separator, and the key has none.
      have without : ¬utf8 text ++ SEP :: serializePrefix texts <+: utf8 own ++ De.behind [] := by
        intro pre
        have mem : SEP ∈ utf8 own ++ De.behind [] := pre.subset (by simp)
        simp only [De.behind, flatMap_nil, append_nil] at mem
        exact separator_not_mem_utf8 own mem
      simp [Field.element, encode, without]
    | cons o others =>
      have next := ih (cons_ne_nil o others) fun content mem =>
        strings content (mem_cons_of_mem _ mem)
      rw [behind_cons, Field.element, encode, str_begins_iff, next]
      simp only [length_cons, take_succ_cons, map_cons, List.cons.injEq, Field.str.injEq]
      constructor
      · rintro ⟨eq, longer, equal⟩
        exact ⟨by omega, eq.symm, equal⟩
      · rintro ⟨longer, eq, equal⟩
        exact ⟨eq.symm, by omega, equal⟩

/-- Reading at the shape a key was written with gives its fields back, so keys of one shape are never confused; and a
prefix of strings selects, among the keys that have strings in its place, those with its strings and something behind. -/
theorem tuple_codec :
    (∀ contents, fromSlice (De.tuple (contents.map Field.kind)) (serializeTuple contents) = some contents) ∧
      (∀ first second, first.map Field.kind = second.map Field.kind → serializeTuple first = serializeTuple second →
        first = second) ∧
      ∀ texts contents, contents ≠ [] → (∀ content ∈ contents.take texts.length, content.isStr) →
        (serializePrefix texts <+: serializeTuple contents ↔
          texts.length < contents.length ∧ contents.take texts.length = texts.map Field.str) := by
  exact ⟨fromSlice_serializeTuple, fun _ _ shape eq => eq_of_serializeTuple_eq eq shape, fun texts _ =>
    serializePrefix_begins_iff texts⟩

theorem tuple_codec_room : serializePrefix ["!r"] <+: serializeTuple [.str "!r", .u64 0xFFFFFFFFFFFFFFFF] :=
  (tuple_codec.2.2 ["!r"] [.str "!r", .u64 0xFFFFFFFFFFFFFFFF] (by decide) (by decide)).mpr (by decide)

/-- Neither half of an unrestricted equivalence: a key that ends with the strings of the prefix lacks the separator, and
an integer may look like a string and its separator. -/
theorem prefix_selects_otherwise : ¬serializePrefix ["a"] <+: serializeTuple [.str "a"] ∧
      serializePrefix ["aaaaaaaa"] <+: serializeTuple [.u64 0x6161616161616161, .str "b"] := by
  decide +kernel

end Wbfuwunel.Database
