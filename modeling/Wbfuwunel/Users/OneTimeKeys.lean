import Wbfuwunel.Database.Counted
import Wbfuwunel.Database.Tuples
import Wbfuwunel.Foundation.Calls

/-! One-time keys of a device: `service/users/keys.rs`.

The keys of a device lie under its prefix in the order of their counts. A claim reads the first of its algorithm and then
deletes it; an upload numbers its keys one by one and stores them in one transaction; counting the keys prunes the oldest
ones above the limit.
-/

set_option autoImplicit false

namespace Wbfuwunel.Users.OneTime

open Foundation Database List

structure OtkRowKey where
  user : String
  device : String
  count : UInt64
  id : String
  deriving DecidableEq, Repr

namespace OtkRowKey

def fields (key : OtkRowKey) : List Field := [.str key.user, .str key.device, .u64 key.count, .str key.id]

def bytes (key : OtkRowKey) : Bytes := serializeTuple key.fields

theorem bytes_injective : Function.Injective bytes := by
  rintro ⟨u, device, n, id⟩ ⟨u', device', n', id'⟩ eq
  simpa [fields] using eq_of_serializeTuple_eq eq rfl

instance rowOrder : LinearOrder OtkRowKey := LinearOrder.lift' bytes bytes_injective

theorem lt_iff (a b : OtkRowKey) : a < b ↔ a.bytes < b.bytes := Iff.rfl

/-- `KeyId::algorithm`: what stands before the colon. -/
def algorithm (key : OtkRowKey) : String := String.ofList (key.id.toList.takeWhile (· ≠ ':'))

def isOf (user device : String) (key : OtkRowKey) : Bool := key.user = user && key.device = device

theorem begins_iff (u device : String) (k : OtkRowKey) : serializePrefix [u, device] <+: k.bytes ↔ k.isOf u device := by
  rw [bytes, serializePrefix_begins_iff _ (by simp [fields]) (by simp [fields, Field.isStr, Field.kind])]
  simp [fields, isOf]

theorem bytes_eq (k : OtkRowKey) : k.bytes =
    (utf8 k.user ++ SEP :: (utf8 k.device ++ [SEP])) ++ (toBeBytes64 k.count ++ SEP :: utf8 k.id) := by
  simp [bytes, fields, serializeTuple, Field.element, Element.encode]

theorem count_le_of_lt {u device : String} {a b : OtkRowKey} (own : a.isOf u device)
    (own' : b.isOf u device) (old : a < b) : a.count ≤ b.count := by
  simp only [isOf, Bool.and_eq_true, decide_eq_true_eq] at own own'
  refine count_le_of_bytes_lt bytes_eq ?_ old
  rw [own.1, own.2, own'.1, own'.2]

end OtkRowKey

open OtkRowKey

/-- A key as a client uploads it; one that does not deserialize is skipped. -/
structure Upload where
  id : String
  key : String
  wellFormed : Bool
  deriving DecidableEq, Repr

/-- The table and the last number given out. The rows that were ever stored and the rows that were pruned are on record;
nothing reads the record. -/
structure Pool where
  otk : Store OtkRowKey String
  counter : UInt64
  uploaded : List OtkRowKey
  pruned : List OtkRowKey

inductive Request where
  | take (algorithm : String)
  | add (keys : List Upload) (limit : Nat)
  | count (limit : Nat)
  deriving DecidableEq, Repr

inductive Call where
  | announcing (algorithm : String)
  | reading (algorithm : String)
  | deleting (algorithm : String) (key : OtkRowKey) (value : String)
  | claimed (algorithm : String) (key : OtkRowKey) (value : String)
  | notFound (algorithm : String)
  | adding (todo : List Upload) (batch : List (OtkRowKey × String))
  | numbering (upload : Upload) (todo : List Upload) (batch : List (OtkRowKey × String))
  | added
  | counting (limit : Nat)
  | pruning (excess : Nat)
  | removing (keys : List OtkRowKey)
  | counted
  deriving DecidableEq, Repr

namespace Pool

variable (user device : String)

variable (pool : Pool)

def deviceRows : List (OtkRowKey × String) :=
  (pool.otk.rowsFromRaw bytes (serializePrefix [user, device])).takeWhile fun row =>
    (serializePrefix [user, device]).isPrefixOf row.1.bytes

/-- `next_count`; the counter stops the server before it overflows. -/
def nextCount : Option Pool :=
  if pool.counter = 0xFFFFFFFFFFFFFFFF then none else some { pool with counter := pool.counter + 1 }

def execute (batch : List (OtkRowKey × String)) : Pool :=
  { pool with otk := batch.foldl (fun otk row => otk.put row.1 row.2) pool.otk
              uploaded := pool.uploaded ++ batch.map Prod.fst }

def del (key : OtkRowKey) : Pool := { pool with otk := pool.otk.del key }

end Pool

section Calls

variable (user device : String)

def begin : Request → Call
  | .take algorithm => .announcing algorithm
  | .add keys limit => .adding (keys.take limit) []
  | .count limit => .counting limit

def advance (deviceExists : Bool) (pool : Pool) : Call → Pool × Call
  | .announcing algorithm =>
    match pool.nextCount with
    | none => (pool, .announcing algorithm)
    | some pool => (pool, .reading algorithm)
  | .reading algorithm =>
    match (pool.deviceRows user device).find? fun row => row.1.algorithm = algorithm with
    | none => (pool, .notFound algorithm)
    | some row => (pool, .deleting algorithm row.1 row.2)
  | .deleting algorithm key value => (pool.del key, .claimed algorithm key value)
  | .adding [] batch => (pool.execute batch, .added)
  | .adding (upload :: todo) batch =>
    if !deviceExists || !upload.wellFormed then (pool, .adding todo batch)
    -- Another upload of the same key may come between this look and the number.
    else if (pool.deviceRows user device).any fun row => row.1.id = upload.id then (pool, .adding todo batch)
    else (pool, .numbering upload todo batch)
  | .numbering upload todo batch =>
    match pool.nextCount with
    | none => (pool, .numbering upload todo batch)
    | some pool => (pool, .adding todo (batch ++ [(⟨user, device, pool.counter, upload.id⟩, upload.key)]))
  | .counting limit =>
    let total := (pool.deviceRows user device).length
    if total > limit then (pool, .pruning (total - limit)) else (pool, .counted)
  | .pruning excess => (pool, .removing (((pool.deviceRows user device).take excess).map Prod.fst))
  | .removing [] => (pool, .counted)
  | .removing (key :: keys) => ({ pool.del key with pruned := key :: pool.pruned }, .removing keys)
  | .claimed algorithm key value => (pool, .claimed algorithm key value)
  | .notFound algorithm => (pool, .notFound algorithm)
  | .added => (pool, .added)
  | .counted => (pool, .counted)

abbrev KeyEvent := CallEvent Request Bool Empty

def keyProtocol : Protocol Pool Call Request Bool Empty where
  begin request pool := (pool, begin request)
  advance := advance user device
  other event := event.elim

end Calls

/-! ## Reading the rows of a device -/

namespace Pool

variable {u device : String} {pool : Pool}

theorem deviceRows_eq : pool.deviceRows u device = pool.otk.rows.filter fun row => row.1.isOf u device := by
  rw [deviceRows, pool.otk.rowsFromRaw_takeWhile lt_iff prefix_rfl]
  congr 1
  funext row
  rw [Bool.eq_iff_iff]
  simp only [Bool.and_eq_true, isPrefixOf_iff_prefix, begins_iff, Bool.not_eq_true', decide_eq_false_iff_not]
  constructor
  · exact And.left
  · intro own
    exact ⟨own, not_lt_of_begins ((begins_iff u device row.1).mpr own)⟩

theorem mem_deviceRows {row : OtkRowKey × String} :
    row ∈ pool.deviceRows u device ↔ row ∈ pool.otk.rows ∧ row.1.isOf u device := by
  rw [deviceRows_eq, mem_filter]

theorem oldest_of_find? {algorithm : String} {row : OtkRowKey × String}
    (got : ((pool.deviceRows u device).find? fun row => row.1.algorithm = algorithm) = some row) :
    row ∈ pool.deviceRows u device ∧ row.1.algorithm = algorithm ∧
      ∀ other ∈ pool.deviceRows u device, other.1.algorithm = algorithm → row.1.count ≤ other.1.count := by
  obtain ⟨fits, old, after, split, earlier⟩ := find?_eq_some_iff_append.mp got
  have mem : row ∈ pool.deviceRows u device := by
    rw [split]
    simp
  refine ⟨mem, by simpa using fits, fun other hit eq => ?_⟩
  have ord : (pool.deviceRows u device).Pairwise fun a b => a.1 < b.1 := by
    rw [deviceRows_eq]
    exact pool.otk.ordered.filter _
  have owns {row : OtkRowKey × String} (hit : row ∈ pool.deviceRows u device) := (mem_deviceRows.mp hit).2
  rw [split] at hit ord
  rcases mem_append.mp hit with ahead | behind
  · exact absurd eq (by simpa using earlier other ahead)
  · rcases mem_cons.mp behind with rfl | behind
    · exact le_rfl
    · have smaller := (pairwise_cons.mp (pairwise_append.mp ord).2.1).1 other behind
      refine count_le_of_lt (owns mem) (owns ?_) smaller
      rw [split]
      exact mem_append_right _ (mem_cons_of_mem _ behind)

end Pool

end Wbfuwunel.Users.OneTime
