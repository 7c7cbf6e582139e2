import Mathlib.Data.List.Sort
import Wbfuwunel.Foundation.Bytes

/-! An ordered table: one row a key, rows in key order. Reads are by key, or along the order from a key on. -/

set_option autoImplicit false

namespace Wbfuwunel.Foundation

open List

section Downward

variable {α : Type} {selects : α → Bool} {list : List α}

theorem dropWhile_eq_filter (downward : list.Pairwise fun a b => selects b → selects a) :
    list.dropWhile selects = list.filter fun x => !selects x := by
  induction list with
  | nil => rfl
  | cons a rest ih =>
    obtain ⟨old, downward⟩ := pairwise_cons.mp downward
    cases sel : selects a with
    | true => simpa [sel] using ih downward
    | false =>
      have none : ∀ x ∈ rest, !selects x := by simpa [sel] using old
      simp [sel, filter_eq_self.mpr none]

theorem takeWhile_eq_filter (downward : list.Pairwise fun a b => selects b → selects a) :
    list.takeWhile selects = list.filter selects := by
  have split := congrArg (filter selects) (@takeWhile_append_dropWhile _ selects list)
  rw [filter_append, dropWhile_eq_filter downward, filter_eq_self.mpr (all_eq_true.mp all_takeWhile)] at split
  simpa using split

end Downward

section Ascending

variable {α κ : Type} [LinearOrder κ] {k : α → κ}

theorem eq_of_ascending {a b : List α} (ord : a.Pairwise fun old after => k old < k after)
    (ord' : b.Pairwise fun old after => k old < k after) (eq : ∀ item, item ∈ a ↔ item ∈ b) :
    a = b := by
  have antisymm : Std.Antisymm fun old after => k old < k after := ⟨fun _ _ lt gt => absurd gt lt.not_gt⟩
  have irrefl : Std.Irrefl fun old after => k old < k after := ⟨fun item => lt_irrefl (k item)⟩
  exact ord.eq_of_mem_iff ord' eq

theorem mem_iff_of_ascending {front rest : List α} {last : α}
    (ord : (front ++ rest).Pairwise fun old after => k old < k after) (ends : front.getLast? = some last) (item : α) :
    (item ∈ front ↔ item ∈ front ++ rest ∧ k item ≤ k last) ∧ (item ∈ rest ↔ item ∈ front ++ rest ∧ k last < k item) := by
  obtain ⟨init, rfl⟩ := getLast?_eq_some_iff.mp ends
  obtain ⟨front, -, behind⟩ := pairwise_append.mp ord
  have upTo (mem : item ∈ init ++ [last]) : k item ≤ k last := by
    rcases mem_append.mp mem with earlier | eq
    · exact ((pairwise_append.mp front).2.2 item earlier last (mem_singleton_self _)).le
    · rw [mem_singleton.mp eq]
  have gt (mem : item ∈ rest) : k last < k item := behind last (mem_append_right _ (mem_singleton_self _)) item mem
  constructor
  · exact ⟨fun mem => ⟨mem_append_left _ mem, upTo mem⟩,
      fun ⟨mem, lt⟩ => (mem_append.mp mem).resolve_right fun later => (gt later).not_ge lt⟩
  · exact ⟨fun mem => ⟨mem_append_right _ mem, gt mem⟩,
      fun ⟨mem, beyond⟩ => (mem_append.mp mem).resolve_left fun early => (upTo early).not_gt beyond⟩

end Ascending

theorem map_filter_eq_iff {α β : Type} (read : α → β) {narrow wide : α → Bool} {list : List α}
    (mem : ∀ x ∈ list, narrow x → wide x) :
    (list.filter wide).map read = (list.filter narrow).map read ↔ ∀ x ∈ list, wide x → narrow x := by
  constructor
  · intro eq x member sel
    have again : list.filter narrow = (list.filter wide).filter narrow := by
      rw [filter_filter]
      refine filter_congr fun x member => ?_
      simpa using mem x member
    have part : (list.filter narrow).Sublist (list.filter wide) := again ▸ filter_sublist
    have whole : list.filter narrow = list.filter wide := part.eq_of_length (by simpa using congrArg List.length eq.symm)
    exact (mem_filter.mp (whole ▸ mem_filter.mpr ⟨member, sel⟩)).2
  · intro agree
    rw [filter_congr fun x member =>
      Bool.eq_iff_iff.mpr ⟨agree x member, mem x member⟩]

theorem length_filter_eq_iff {α : Type} {narrow wide : α → Bool} {list : List α} (mem : ∀ x ∈ list, narrow x → wide x) :
    (list.filter wide).length = (list.filter narrow).length ↔ ∀ x ∈ list, wide x → narrow x := by
  rw [← map_filter_eq_iff (fun _ => ()) mem, map_const', map_const', replicate_left_inj]

structure Store (K V : Type) [LinearOrder K] where
  rows : List (K × V)
  ordered : rows.Pairwise (fun first second => first.1 < second.1)

namespace Store

variable {K V : Type} [LinearOrder K]

def empty : Store K V := ⟨[], List.Pairwise.nil⟩

def find (store : Store K V) (key : K) : Option V :=
  (store.rows.find? (fun row => row.1 = key)).map Prod.snd

variable (store : Store K V)

def contains (key : K) : Bool := (store.find key).isSome

def keys : List K := store.rows.map Prod.fst

def keep (selects : K → V → Bool) : Store K V where
  rows := store.rows.filter fun row => selects row.1 row.2
  ordered := store.ordered.filter _

def del (key : K) : Store K V := store.keep fun other _ => other ≠ key

def put (key : K) (value : V) : Store K V where
  rows := store.rows.filter (fun row => row.1 < key) ++ (key, value) :: store.rows.filter (fun row => key < row.1)
  ordered := by
    refine pairwise_append.mpr ⟨store.ordered.filter _, ?_, ?_⟩
    · refine pairwise_cons.mpr ⟨?_, store.ordered.filter _⟩
      intro row inside
      simpa using (mem_filter.mp inside).2
    · intro row inside other beside
      have below : row.1 < key := by simpa using (mem_filter.mp inside).2
      rcases mem_cons.mp beside with rfl | beside
      · exact below
      · exact below.trans (by simpa using (mem_filter.mp beside).2)

variable {store : Store K V} {key : K} {row : K × V} {rows : List (K × V)} {v : V} {o : K}

theorem find_eq_some_iff : store.find key = some v ↔ (key, v) ∈ store.rows := by
  obtain ⟨rows, ordered⟩ := store
  induction rows with
  | nil => simp [find]
  | cons row rows ih =>
    obtain ⟨gt, ordered⟩ := pairwise_cons.mp ordered
    have next := ih ordered
    simp only [find] at next ⊢
    by_cases eq : row.1 = key
    · have absent : ∀ o ∈ rows, o.1 ≠ key := fun o mem => eq ▸ (gt o mem).ne'
      have rest : (key, v) ∉ rows := fun mem => absent _ mem rfl
      simp [eq, rest, Prod.ext_iff, eq_comm]
    · have o : (key, v) ≠ row := fun equal => eq (equal ▸ rfl)
      simp [eq, o, next]

theorem nodup_keys (store : Store K V) : (store.rows.map Prod.fst).Nodup :=
  pairwise_map.mpr (store.ordered.imp fun smaller => smaller.ne)

theorem find_eq_none_iff : store.find key = none ↔ ∀ row ∈ store.rows, row.1 ≠ key := by
  simp [find]

theorem mem_put : row ∈ (store.put key v).rows ↔ row = (key, v) ∨ row ∈ store.rows ∧ row.1 ≠ key := by
  simp only [put, mem_append, mem_cons, mem_filter, decide_eq_true_eq, ne_iff_lt_or_gt]
  tauto

theorem countP_put_le (store : Store K V) (selects : K × V → Bool) (key : K) (v : V) :
    (store.put key v).rows.countP selects ≤ store.rows.countP selects + if selects (key, v) then 1 else 0 := by
  have split := store.rows.countP_eq_countP_filter_add selects fun row => decide (row.1 < key)
  have gt : (store.rows.filter fun row => key < row.1).Sublist (store.rows.filter fun row => !decide (row.1 < key)) := by
    refine monotone_filter_right _ fun row => ?_
    simpa using le_of_lt
  have fewer := gt.countP_le (p := selects)
  simp only [put, countP_append, countP_cons]
  omega

theorem length_put_le (store : Store K V) (key : K) (v : V) : (store.put key v).rows.length ≤ store.rows.length + 1 := by
  simpa using store.countP_put_le (fun _ => true) key v

theorem mem_keep {selects : K → V → Bool} : row ∈ (store.keep selects).rows ↔ row ∈ store.rows ∧ selects row.1 row.2 := by
  simp [keep]

@[simp] theorem find_empty (key : K) : (empty : Store K V).find key = none := rfl

theorem find_put (store : Store K V) (key o : K) (v : V) :
    (store.put key v).find o = if o = key then some v else store.find o := by
  apply Option.ext
  intro got
  split
  next eq =>
    simp [find_eq_some_iff, mem_put, eq, @eq_comm _ got]
  · simp_all [find_eq_some_iff, mem_put]

@[simp] theorem find_put_self (store : Store K V) (key : K) (v : V) : (store.put key v).find key = some v := by
  simp [find_put]

@[simp] theorem find_put_of_ne (store : Store K V) (v : V) (ne : o ≠ key) : (store.put key v).find o = store.find o := by
  simp [find_put, ne]

theorem find_keep (store : Store K V) (selects : K → V → Bool) (key : K) :
    (store.keep selects).find key = (store.find key).filter (selects key) := by
  apply Option.ext
  intro got
  simp [find_eq_some_iff, mem_keep]

theorem find_del (store : Store K V) (key o : K) : (store.del key).find o = if o = key then none else store.find o := by
  rw [del, find_keep]
  split <;> cases store.find o <;> simp_all

@[simp] theorem find_del_self (store : Store K V) (key : K) : (store.del key).find key = none := by
  simp [find_del]

@[simp] theorem find_del_of_ne (store : Store K V) (ne : o ≠ key) : (store.del key).find o = store.find o := by
  simp [find_del, ne]

theorem find_foldl_del (store : Store K V) (keys : List K) (key : K) :
    (keys.foldl del store).find key = if key ∈ keys then none else store.find key := by
  induction keys generalizing store with
  | nil => simp
  | cons a keys ih =>
    rw [foldl_cons, ih]
    by_cases eq : key = a <;> simp [eq]

theorem find_foldl_put_of_notMem (store : Store K V) (absent : key ∉ rows.map Prod.fst) :
    (rows.foldl (fun store row => store.put row.1 row.2) store).find key = store.find key := by
  induction rows generalizing store with
  | nil => rfl
  | cons row rows ih =>
    simp only [map_cons, mem_cons, not_or] at absent
    rw [foldl_cons, ih _ absent.2, find_put_of_ne _ _ absent.1]

theorem mem_or_mem_of_foldl_put (mem : row ∈ (rows.foldl (fun store row => store.put row.1 row.2) store).rows) :
    row ∈ rows ∨ row ∈ store.rows := by
  induction rows generalizing store with
  | nil => exact .inr mem
  | cons a rows ih =>
    rcases ih mem with later | earlier
    · exact .inl (mem_cons_of_mem _ later)
    · rcases mem_put.mp earlier with rfl | ⟨old, -⟩
      · exact .inl mem_cons_self
      · exact .inr old

theorem isSome_find_foldl_put (store : Store K V) (mem : key ∈ rows.map Prod.fst) :
    ((rows.foldl (fun store row => store.put row.1 row.2) store).find key).isSome := by
  induction rows generalizing store with
  | nil => cases mem
  | cons row rows ih =>
    by_cases later : key ∈ rows.map Prod.fst
    · exact ih _ later
    · obtain rfl | again := mem_cons.mp mem
      · rw [foldl_cons, find_foldl_put_of_notMem _ later, find_put_self]
        rfl
      · exact absurd again later

/-! ## Tables whose keys are the facts -/

section Lists

variable {α : Type} {store : Store K Unit} {keyOf : α → K} {holds : α → Prop}

/-- The table has a row for each fact, and no other row. -/
def Lists (store : Store K Unit) (keyOf : α → K) (holds : α → Prop) : Prop :=
  ∀ key, store.find key = some () ↔ ∃ fact, key = keyOf fact ∧ holds fact

theorem lists_empty (keyOf : α → K) : (empty : Store K Unit).Lists keyOf fun _ => False := by simp [Lists]

variable (lists : store.Lists keyOf holds)
include lists

theorem Lists.find_iff (distinct : Function.Injective keyOf) (fact : α) :
    store.find (keyOf fact) = some () ↔ holds fact := by
  rw [lists]
  constructor
  · rintro ⟨o, eq, other_holds⟩
    exact distinct eq ▸ other_holds
  · exact fun fact_holds => ⟨fact, rfl, fact_holds⟩

theorem Lists.put (fact : α) : (store.put (keyOf fact) ()).Lists keyOf fun o => o = fact ∨ holds o := by
  intro key
  rw [find_put]
  split
  next eq =>
    exact iff_of_true rfl ⟨fact, eq, .inl rfl⟩
  next ne =>
    rw [lists]
    refine exists_congr fun o => and_congr_right ?_
    rintro rfl
    exact (or_iff_right fun eq => ne (congrArg keyOf eq)).symm

theorem Lists.del (distinct : Function.Injective keyOf) (fact : α) :
    (store.del (keyOf fact)).Lists keyOf fun o => o ≠ fact ∧ holds o := by
  intro key
  rw [find_del]
  split
  next eq =>
    simp only [reduceCtorEq, false_iff, not_exists, not_and]
    rintro o rfl ne
    exact absurd (distinct eq) ne
  next ne =>
    rw [lists]
    refine exists_congr fun o => and_congr_right ?_
    rintro rfl
    exact (and_iff_right fun eq => ne (congrArg keyOf eq)).symm

end Lists

/-! ## Reading along the order -/

def rowsFrom (store : Store K V) (start : K) : List (K × V) := store.rows.dropWhile fun row => row.1 < start

def rowsDownFrom (store : Store K V) (start : K) : List (K × V) := store.rows.reverse.dropWhile fun row => start < row.1

theorem rowsDownFrom_eq_filter (store : Store K V) (start : K) :
    store.rowsDownFrom start = store.rows.reverse.filter fun row => !decide (start < row.1) :=
  dropWhile_eq_filter ((pairwise_reverse.mpr store.ordered).imp fun smaller gt => by
    simp only [decide_eq_true_eq] at gt ⊢
    exact gt.trans smaller)

section Prefixes

variable (store : Store K V) (bytes : K → Bytes)

def rowsFromRaw (seek : Bytes) : List (K × V) := store.rows.dropWhile fun row => bytes row.1 < seek

def rowsDownFromRaw (seek : Bytes) : List (K × V) := store.rows.reverse.dropWhile fun row => seek < bytes row.1

variable {bytes} (monotone : ∀ a b, a < b ↔ bytes a < bytes b)
include monotone

theorem rowsFromRaw_eq_filter (seek : Bytes) :
    store.rowsFromRaw bytes seek = store.rows.filter fun row => !decide (bytes row.1 < seek) :=
  dropWhile_eq_filter (store.ordered.imp fun smaller lt => by
    simp only [decide_eq_true_eq] at lt ⊢
    exact ((monotone _ _).mp smaller).trans lt)

theorem rowsDownFromRaw_eq_filter (seek : Bytes) :
    store.rowsDownFromRaw bytes seek = store.rows.reverse.filter fun row => !decide (seek < bytes row.1) :=
  dropWhile_eq_filter ((pairwise_reverse.mpr store.ordered).imp fun smaller gt => by
    simp only [decide_eq_true_eq] at gt ⊢
    exact lt_trans gt ((monotone _ _).mp smaller))

variable {start : Bytes} {seek : Bytes}

theorem rowsFromRaw_takeWhile (pre : start <+: seek) :
    ((store.rowsFromRaw bytes seek).takeWhile fun row => start.isPrefixOf (bytes row.1)) =
      store.rows.filter fun row => start.isPrefixOf (bytes row.1) && !decide (bytes row.1 < seek) := by
  rw [takeWhile_eq_filter, store.rowsFromRaw_eq_filter monotone, filter_filter]
  rw [store.rowsFromRaw_eq_filter monotone]
  refine List.Pairwise.imp_of_mem ?_ (store.ordered.filter _)
  intro a b mem _ smaller pre'
  have gt : ¬bytes a.1 < seek := by simpa using (mem_filter.mp mem).2
  rw [monotone] at smaller
  rw [ isPrefixOf_iff_prefix] at pre' ⊢
  -- The seek key lies between the prefix and the first of the two.
  refine begins_of_between (fun lt => ?_) smaller.not_gt pre'
  exact not_lt_of_begins pre (lt_of_le_of_lt (not_lt.mp gt) lt)

theorem rowsDownFromRaw_takeWhile (pre : start <+: seek) :
    ((store.rowsDownFromRaw bytes seek).takeWhile fun row => start.isPrefixOf (bytes row.1)) =
      (store.rows.filter fun row => start.isPrefixOf (bytes row.1) && !decide (seek < bytes row.1)).reverse := by
  rw [takeWhile_eq_filter, store.rowsDownFromRaw_eq_filter monotone, filter_filter, filter_reverse]
  rw [store.rowsDownFromRaw_eq_filter monotone]
  refine List.Pairwise.imp_of_mem ?_ ((pairwise_reverse.mpr store.ordered).filter _)
  intro a b mem _ smaller pre'
  have lt : ¬seek < bytes a.1 := by simpa using (mem_filter.mp mem).2
  rw [monotone] at smaller
  rw [ isPrefixOf_iff_prefix] at pre' ⊢
  refine begins_of_between (fun under => ?_) lt pre
  exact not_lt_of_begins pre' (smaller.trans under)

theorem rowsFrom_takeWhile {seek : K} (pre : start <+: bytes seek) :
    ((store.rowsFrom seek).takeWhile fun row => start.isPrefixOf (bytes row.1)) =
      store.rows.filter fun row => start.isPrefixOf (bytes row.1) && !decide (row.1 < seek) := by
  have eq : store.rowsFrom seek = store.rowsFromRaw bytes (bytes seek) := by simp only [rowsFrom, rowsFromRaw, monotone]
  rw [eq, store.rowsFromRaw_takeWhile monotone pre]
  simp only [monotone]

theorem rowsDownFrom_takeWhile {seek : K} (pre : start <+: bytes seek) :
    ((store.rowsDownFrom seek).takeWhile fun row => start.isPrefixOf (bytes row.1)) =
      (store.rows.filter fun row => start.isPrefixOf (bytes row.1) && !decide (seek < row.1)).reverse := by
  have eq : store.rowsDownFrom seek = store.rowsDownFromRaw bytes (bytes seek) := by
    simp only [rowsDownFrom, rowsDownFromRaw, monotone]
  rw [eq, store.rowsDownFromRaw_takeWhile monotone pre]
  simp only [monotone]

variable (bytes start) in
def rowsStarting : List (K × V) := (store.rowsFromRaw bytes start).takeWhile fun row => start.isPrefixOf (bytes row.1)

theorem rowsStarting_eq_filter :
    store.rowsStarting bytes start = store.rows.filter fun row => start.isPrefixOf (bytes row.1) := by
  rw [rowsStarting, store.rowsFromRaw_takeWhile monotone prefix_rfl]
  congr 1
  funext row
  by_cases pre : start.isPrefixOf (bytes row.1)
  · simp [not_lt_of_begins ( isPrefixOf_iff_prefix.mp pre)]
  · simp [pre]

theorem mem_rowsStarting {row : K × V} : row ∈ store.rowsStarting bytes start ↔ row ∈ store.rows ∧ start <+: bytes row.1 := by
  rw [store.rowsStarting_eq_filter monotone, mem_filter, isPrefixOf_iff_prefix]

theorem find_foldl_del_rowsStarting (key : K) :
    (((store.rowsStarting bytes start).map Prod.fst).foldl del store).find key =
      if start <+: bytes key then none else store.find key := by
  rw [find_foldl_del]
  by_cases pre : start <+: bytes key
  · split
    · rfl
    next absent =>
      refine Option.eq_none_iff_forall_ne_some.mpr fun v got => absent ?_
      exact mem_map.mpr ⟨(key, v), (store.mem_rowsStarting monotone).mpr ⟨find_eq_some_iff.mp got, pre⟩, rfl⟩
  · rw [if_neg pre, if_neg]
    intro mem
    obtain ⟨row, member, rfl⟩ := mem_map.mp mem
    exact pre ((store.mem_rowsStarting monotone).mp member).2

end Prefixes

section Bytes

variable (store : Store Bytes V)

def rowsBeginning (start : Bytes) : List (Bytes × V) :=
  (store.rowsFrom start).takeWhile fun row => start.isPrefixOf row.1

theorem rowsBeginning_eq_rowsStarting (start : Bytes) : store.rowsBeginning start = store.rowsStarting id start := by
  -- The two reads decide the order of the bytes by different instances.
  have eq : store.rowsFrom start = store.rowsFromRaw id start :=
    congrArg store.rows.dropWhile (funext fun _ => decide_eq_decide.mpr Iff.rfl)
  rw [rowsBeginning, eq]
  rfl

theorem rowsBeginning_eq_filter (start : Bytes) :
    store.rowsBeginning start = store.rows.filter fun row => start.isPrefixOf row.1 := by
  rw [rowsBeginning_eq_rowsStarting]
  exact store.rowsStarting_eq_filter fun _ _ => Iff.rfl

variable {start : Bytes}

theorem mem_rowsBeginning {row : Bytes × V} : row ∈ store.rowsBeginning start ↔ row ∈ store.rows ∧ start <+: row.1 := by
  rw [rowsBeginning_eq_filter, mem_filter, isPrefixOf_iff_prefix]

theorem rowsBeginning_congr {store o : Store Bytes V} (eq : ∀ key, start <+: key → store.find key = o.find key) :
    store.rowsBeginning start = o.rowsBeginning start := by
  -- Both reads are sorted by their keys, so the same rows come in the same order.
  have ord : ∀ table : Store Bytes V, (table.rowsBeginning start).Pairwise fun row next => row.1 < next.1 := by
    intro table
    rw [rowsBeginning_eq_filter]
    exact table.ordered.filter _
  refine eq_of_ascending (ord store) (ord o) ?_
  rintro ⟨key, v⟩
  rw [mem_rowsBeginning, mem_rowsBeginning]
  refine and_congr_left fun pre => ?_
  rw [← find_eq_some_iff, ← find_eq_some_iff, eq key pre]

theorem find_foldl_del_rowsBeginning (start key : Bytes) :
    (((store.rowsBeginning start).map Prod.fst).foldl del store).find key =
      if start <+: key then none else store.find key := by
  rw [rowsBeginning_eq_rowsStarting]
  exact store.find_foldl_del_rowsStarting (fun _ _ => Iff.rfl) key

end Bytes

end Store

end Wbfuwunel.Foundation
