import Wbfuwunel.Database.Codec
import Wbfuwunel.Foundation.Store

/-! Tables keyed by a pair of ids: `keys_prefix.rs` over `(first, second)` keys.

A scan for one first id seeks a prefix. With a separator at its end the prefix is exact; the raw id is a prefix of the
keys of every id that extends it as well.
-/

set_option autoImplicit false

namespace Wbfuwunel.Database

open Foundation List Store

def pairKey (first second : String) : Bytes := serializeKey [.str first, .str second]

theorem pairKey_eq (a b : String) : pairKey a b = utf8 a ++ SEP :: utf8 b := by
  simp [pairKey, Element.encode]

variable {first other last : String}

@[simp] theorem pairKey_inj {b : String} : pairKey first b = pairKey other last ↔ first = other ∧ b = last := by
  simp [pairKey_eq, str_eq_iff]

/-- The raw id begins a key exactly if it begins the key's first id: it has no separator to reach past it with. -/
theorem utf8_begins_pairKey : utf8 first <+: pairKey other last ↔ utf8 first <+: utf8 other := by
  rw [pairKey_eq, utf8_begins_iff]

theorem interfix_begins_pairKey : serializeKey [.str first, .interfix] <+: pairKey other last ↔ first = other := by
  simp [pairKey_eq, Element.encode, str_begins_iff]

def Extends (first other : String) : Prop := utf8 first <+: utf8 other ∧ other ≠ first

/-- Every row was written under a pair of ids. -/
structure PairTable where
  store : Store Bytes Bytes
  keyed : ∀ row ∈ store.rows, ∃ first second, row.1 = pairKey first second

namespace PairTable

def empty : PairTable := ⟨.empty, by simp [Store.empty]⟩

variable (table : PairTable)

variable (first second : String)

def insert (value : Bytes) : PairTable where
  store := table.store.put (pairKey first second) value
  keyed := by
    intro row inside
    rcases mem_put.mp inside with rfl | ⟨inside, _⟩
    · exact ⟨first, second, rfl⟩
    · exact table.keyed row inside

def del (table : PairTable) (first second : String) : PairTable where
  store := table.store.del (pairKey first second)
  keyed := fun row inside => table.keyed row (mem_keep.mp inside).1

variable (pairs : List (String × String))

def insertAll : PairTable :=
  pairs.foldl (fun table pair => table.insert pair.1 pair.2 []) table

def delAll : PairTable :=
  pairs.foldl (fun table pair => table.del pair.1 pair.2) table

def get : Option Bytes := table.store.find (pairKey first second)

def contains : Bool := (table.get first second).isSome

def seconds (start : Bytes) : List String :=
  (table.store.rowsBeginning start).filterMap fun row => fromSlice (De.strAfter 1) row.1

def keysRawPrefix (first : String) : List String := table.seconds (utf8 first)

def keysPrefix (first : String) : List String := table.seconds (serializeKey [.str first, .interfix])

/-! ## Rows -/

section Rows

variable (table : PairTable) (a b c d : String) (v : Bytes)

theorem get_insert : (table.insert a b v).get c d = if c = a ∧ d = b then some v else table.get c d := by
  simp [get, insert, find_put]

theorem get_del : (table.del a b).get c d = if c = a ∧ d = b then none else table.get c d := by
  simp [get, del, find_del]

@[simp] theorem contains_empty : empty.contains a b = false := rfl

@[simp] theorem contains_insert : (table.insert a b v).contains c d = (decide (c = a ∧ d = b) || table.contains c d) := by
  by_cases eq : c = a ∧ d = b <;> simp [contains, get_insert, eq]

@[simp] theorem contains_del : (table.del a b).contains c d = (!decide (c = a ∧ d = b) && table.contains c d) := by
  by_cases eq : c = a ∧ d = b <;> simp [contains, get_del, eq]

theorem contains_insertAll (pairs : List (String × String)) : (table.insertAll pairs).contains c d =
    (decide ((c, d) ∈ pairs) || table.contains c d) := by
  unfold insertAll
  induction pairs generalizing table with
  | nil => simp
  | cons pair pairs ih =>
    rw [foldl_cons, ih, contains_insert, Bool.eq_iff_iff]
    simp only [Bool.or_eq_true, decide_eq_true_eq, mem_cons, Prod.ext_iff]
    tauto

theorem contains_delAll (pairs : List (String × String)) : (table.delAll pairs).contains c d =
    (!decide ((c, d) ∈ pairs) && table.contains c d) := by
  unfold delAll
  induction pairs generalizing table with
  | nil => simp
  | cons pair pairs ih =>
    rw [foldl_cons, ih, contains_del, Bool.eq_iff_iff]
    simp only [Bool.and_eq_true, Bool.not_eq_true', decide_eq_false_iff_not, mem_cons, Prod.ext_iff]
    tauto

theorem get_delAll_of_not_mem {pairs : List (String × String)} (out : (c, d) ∉ pairs) :
    (table.delAll pairs).get c d = table.get c d := by
  refine foldlRecOn (motive := (get · c d = table.get c d)) pairs _ rfl fun next same pair mem => ?_
  rw [get_del, if_neg, same]
  rintro ⟨rfl, rfl⟩
  exact out mem

theorem get_insertAll_of_not_mem {pairs : List (String × String)} (out : (c, d) ∉ pairs) :
    (table.insertAll pairs).get c d = table.get c d := by
  refine foldlRecOn (motive := (get · c d = table.get c d)) pairs _ rfl fun next same pair mem => ?_
  rw [get_insert, if_neg, same]
  rintro ⟨rfl, rfl⟩
  exact out mem

end Rows

/-! ## Scans -/

variable {table : PairTable} {start : Bytes} {first second : String}

theorem fromSlice_pairKey (first second : String) : fromSlice (De.strAfter 1) (pairKey first second) = some second := by
  have clean : ∀ record ∈ [utf8 first], SEP ∉ record := by
    intro record mem
    exact mem_singleton.mp mem ▸ separator_not_mem_utf8 first
  exact pairKey_eq first second ▸ De.fromSlice_strAfter_text clean second

theorem contains_iff : table.contains first second ↔ ∃ value, (pairKey first second, value) ∈ table.store.rows := by
  simp [contains, get, Option.isSome_iff_exists, find_eq_some_iff]

theorem mem_seconds : second ∈ table.seconds start ↔
    ∃ first, table.contains first second ∧ start <+: pairKey first second := by
  simp only [seconds, mem_filterMap, mem_rowsBeginning, contains_iff]
  constructor
  · rintro ⟨⟨k, v⟩, ⟨mem, pre⟩, reads⟩
    obtain ⟨first, got, rfl⟩ := table.keyed _ mem
    rw [fromSlice_pairKey] at reads
    cases reads
    exact ⟨first, ⟨v, mem⟩, pre⟩
  · rintro ⟨first, ⟨v, mem⟩, pre⟩
    exact ⟨_, ⟨mem, pre⟩, fromSlice_pairKey first second⟩

theorem row_ext {row other : Bytes × Bytes} (mem : row ∈ table.store.rows) (beside : other ∈ table.store.rows)
    (eq : row.1 = other.1) : row = other := by
  have got := find_eq_some_iff.mpr mem
  rw [eq, find_eq_some_iff.mpr beside] at got
  exact Prod.ext eq (Option.some.inj got).symm

theorem nodup_seconds : (table.seconds start).Nodup ↔ ∀ first other second,
    table.contains first second → table.contains other second →
      start <+: pairKey first second → start <+: pairKey other second → first = other := by
  let secondOf : Bytes × Bytes → String := fun row => (fromSlice (De.strAfter 1) row.1).getD ""
  have mapped : table.seconds start = (table.store.rowsBeginning start).map secondOf := by
    rw [← filterMap_eq_map']
    refine filterMap_congr fun row mem => ?_
    obtain ⟨first, second, key⟩ := table.keyed row (table.store.mem_rowsBeginning.mp mem).1
    simp [secondOf, key, fromSlice_pairKey]
  -- Rows are distinct by their keys, so a repeated second id comes from two rows.
  have distinct : (table.store.rowsBeginning start).Nodup := by
    rw [rowsBeginning_eq_filter]
    exact (table.store.ordered.imp fun {row other} smaller eq => (eq ▸ smaller).false).filter _
  rw [mapped, nodup_map_iff_inj_on distinct]
  constructor
  · intro injective first other second has shares begins meets
    obtain ⟨v, mem⟩ := contains_iff.mp has
    obtain ⟨c, beside⟩ := contains_iff.mp shares
    have eq := injective _ (table.store.mem_rowsBeginning.mpr ⟨mem, begins⟩) _
      (table.store.mem_rowsBeginning.mpr ⟨beside, meets⟩) (by simp [secondOf, fromSlice_pairKey])
    exact (pairKey_inj.mp (congrArg Prod.fst eq)).1
  · intro unique row mem other beside eq
    obtain ⟨mem, begins⟩ := table.store.mem_rowsBeginning.mp mem
    obtain ⟨beside, meets⟩ := table.store.mem_rowsBeginning.mp beside
    obtain ⟨first, second, key⟩ := table.keyed row mem
    obtain ⟨another, last, lock⟩ := table.keyed other beside
    obtain rfl : second = last := by simpa [secondOf, key, lock, fromSlice_pairKey] using eq
    have owner := unique first another second (contains_iff.mpr ⟨row.2, key ▸ mem⟩)
      (contains_iff.mpr ⟨other.2, lock ▸ beside⟩) (key ▸ begins) (lock ▸ meets)
    exact row_ext mem beside (by rw [key, lock, owner])

theorem nodup_keysPrefix : (table.keysPrefix first).Nodup := by
  rw [keysPrefix, nodup_seconds]
  intro one two second _ _ pre meets
  exact (interfix_begins_pairKey.mp pre).symm.trans (interfix_begins_pairKey.mp meets)

theorem mem_keysPrefix : second ∈ table.keysPrefix first ↔ table.contains first second := by
  simp only [keysPrefix, mem_seconds, interfix_begins_pairKey, exists_eq_right']

def Unextended (table : PairTable) (first : String) : Prop :=
  ∀ other second, table.contains other second → ¬Extends first other

/-- A scan by the raw id is exact as long as no row is of an id that extends it, and no longer. -/
theorem keysRawPrefix_exact_iff : ((∀ second, second ∈ table.keysRawPrefix first ↔ table.contains first second) ∧
      (table.keysRawPrefix first).Nodup) ↔ table.Unextended first := by
  simp only [keysRawPrefix, mem_seconds, nodup_seconds, utf8_begins_pairKey]
  constructor
  · rintro ⟨ls, unique⟩ other second has ⟨pre, ne⟩
    have own := (ls second).mp ⟨other, has, pre⟩
    exact ne (unique other first second has own pre prefix_rfl)
  · intro unextended
    have sole : ∀ other second, table.contains other second → utf8 first <+: utf8 other → other = first := by
      intro other second has pre
      by_contra ne
      exact unextended other second has ⟨pre, ne⟩
    refine ⟨fun second => ⟨?_, fun has => ⟨first, has, prefix_rfl⟩⟩, ?_⟩
    · rintro ⟨other, has, pre⟩
      exact sole other second has pre ▸ has
    · intro one two second has shares pre meets
      exact (sole one second has pre).trans (sole two second shares meets).symm

theorem seconds_congr {other : PairTable}
    (eq : ∀ first second, start <+: pairKey first second → table.get first second = other.get first second) :
    table.seconds start = other.seconds start := by
  refine congrArg _ (rowsBeginning_congr fun k pre => ?_)
  by_cases paired : ∃ first second, k = pairKey first second
  · obtain ⟨first, second, rfl⟩ := paired
    exact eq first second pre
  · -- a key that is no pair has no row in either table
    have absent : ∀ any : PairTable, any.store.find k = none := fun any =>
      find_eq_none_iff.mpr fun row mem h => paired (h ▸ any.keyed row mem)
    rw [absent, absent]

end PairTable

end Wbfuwunel.Database
