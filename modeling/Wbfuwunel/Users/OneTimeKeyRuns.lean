import Wbfuwunel.Users.OneTimeKeys

/-! Which key a claim gets, whatever runs beside it. -/

set_option autoImplicit false

namespace Wbfuwunel.Users.OneTime

open Foundation Database List Option Store Call Protocol Pool

namespace Call

def batch : Call → List (OtkRowKey × String)
  | .adding _ batch | .numbering _ _ batch => batch
  | _ => []

def keys : Call → List OtkRowKey
  | .deleting _ key _ => [key]
  | .removing keys => keys
  | _ => []

def held : Call → Option (String × OtkRowKey)
  | .deleting algorithm key _ | .claimed algorithm key _ => some (algorithm, key)
  | _ => none

def claim : Call → Option OtkRowKey
  | .claimed _ key _ => some key
  | _ => none

end Call

section Moves

variable (user device : String)

def Pool.Oldest (pool : Pool) (algorithm : String) (key : OtkRowKey) : Prop :=
  ∀ row ∈ pool.otk.rows, row.1.isOf user device → row.1.algorithm = algorithm → key.count ≤ row.1.count

inductive Move (pool : Pool) : Call → Pool → Call → Prop where
  | pass {call call' : Call} (open' : call.claim = none) (batch : ∀ row ∈ call'.batch, row ∈ call.batch)
      (keys : call'.keys = []) (held : call'.held = none) : Move pool call pool call'
  | number {call call' : Call} (open' : call.claim = none) (room : pool.counter ≠ 0xFFFFFFFFFFFFFFFF)
      (batch : ∀ row ∈ call'.batch, row ∈ call.batch ∨ row.1.count = pool.counter + 1)
      (keys : call'.keys = []) (held : call'.held = none) :
      Move pool call { pool with counter := pool.counter + 1 } call'
  | read {algorithm : String} {key : OtkRowKey} {value : String} (found : (key, value) ∈ pool.otk.rows)
      (own : key.isOf user device) (fits : key.algorithm = algorithm) (oldest : pool.Oldest user device algorithm key) :
      Move pool (.reading algorithm) pool (.deleting algorithm key value)
  | list {excess : Nat} {keys : List OtkRowKey} (found : ∀ key ∈ keys, ∃ row ∈ pool.otk.rows, row.1 = key) :
      Move pool (.pruning excess) pool (.removing keys)
  | claim {algorithm : String} {key : OtkRowKey} {value : String} :
      Move pool (.deleting algorithm key value) (pool.del key) (.claimed algorithm key value)
  | prune {key : OtkRowKey} {keys : List OtkRowKey} :
      Move pool (.removing (key :: keys)) { pool.del key with pruned := key :: pool.pruned } (.removing keys)
  | execute {batch : List (OtkRowKey × String)} : Move pool (.adding [] batch) (pool.execute batch) .added

variable {user device} {pool : Pool}

theorem nextCount_eq_some {next : Pool} (given : pool.nextCount = some next) :
    pool.counter ≠ 0xFFFFFFFFFFFFFFFF ∧ next = { pool with counter := pool.counter + 1 } := by
  unfold nextCount at given
  split at given
  · cases given
  next r =>
    exact ⟨r, (some.inj given).symm⟩

variable {c : Call}

theorem move_advance (deviceExists : Bool) (open' : c.claim = none) :
    Move user device pool c (advance user device deviceExists pool c).1 (advance user device deviceExists pool c).2 := by
  cases c with
  | announcing algorithm =>
    simp only [advance]
    cases given : pool.nextCount with
    | none => exact .pass rfl (by simp [batch]) rfl rfl
    | some next =>
      obtain ⟨r, rfl⟩ := nextCount_eq_some given
      exact .number rfl r (by simp [batch]) rfl rfl
  | reading algorithm =>
    simp only [advance]
    split
    · exact .pass rfl (by simp [batch]) rfl rfl
    next row got =>
      obtain ⟨mem, fits, oldest⟩ := oldest_of_find? got
      obtain ⟨stored, own⟩ := mem_deviceRows.mp mem
      exact .read stored own fits fun o hit own eq => oldest o (mem_deviceRows.mpr ⟨hit, own⟩) eq
  | deleting algorithm k v => exact .claim
  | claimed algorithm k v => cases open'
  | notFound algorithm => exact .pass rfl (fun _ mem => mem) rfl rfl
  | adding todo batch =>
    cases todo with
    | nil => exact .execute
    | cons upload todo =>
      simp only [advance]
      split
      · exact .pass rfl (fun _ mem => mem) rfl rfl
      · split <;> exact .pass rfl (fun _ mem => mem) rfl rfl
  | numbering upload todo batch =>
    simp only [advance]
    cases given : pool.nextCount with
    | none => exact .pass rfl (fun _ mem => mem) rfl rfl
    | some next =>
      obtain ⟨r, rfl⟩ := nextCount_eq_some given
      refine .number rfl r (fun row mem => ?_) rfl rfl
      rcases mem_append.mp mem with old | new
      · exact .inl old
      · rw [mem_singleton.mp new]
        exact .inr rfl
  | added => exact .pass rfl (fun _ mem => mem) rfl rfl
  | counting limit =>
    simp only [advance]
    split <;> exact .pass rfl (by simp [batch]) rfl rfl
  | pruning excess =>
    refine .list fun k mem => ?_
    obtain ⟨row, hit, rfl⟩ := mem_map.mp mem
    exact ⟨row, (mem_deviceRows.mp (mem_of_mem_take hit)).1, rfl⟩
  | removing keys =>
    cases keys with
    | nil => exact .pass rfl (by simp [advance, batch]) rfl rfl
    | cons k keys => exact .prune
  | counted => exact .pass rfl (fun _ mem => mem) rfl rfl

theorem open_of_moves {deviceExists : Bool} {pool : Pool}
    (moves : (keyProtocol user device).advance deviceExists pool c ≠ (pool, c)) : c.claim = none := by
  cases c with
  | claimed _ _ _ => exact absurd rfl moves
  | _ => rfl

end Moves

/-! ## The record -/

structure Pool.Recorded (pool : Pool) (returned : Multiset OtkRowKey) : Prop where
  numbered : ∀ key ∈ pool.uploaded, key.count ≤ pool.counter
  stored : ∀ row ∈ pool.otk.rows, row.1 ∈ pool.uploaded
  returned : ∀ key ∈ returned, key ∈ pool.uploaded ∧ pool.otk.find key = none
  pruned : ∀ key ∈ pool.pruned, key ∈ pool.uploaded ∧ pool.otk.find key = none

structure Call.Recorded (pool : Pool) (call : Call) : Prop where
  known : ∀ key ∈ call.keys, key ∈ pool.uploaded
  fresh : ∀ row ∈ call.batch, row.1.count ≤ pool.counter ∧ ∀ key ∈ pool.uploaded, key.count ≠ row.1.count

section Record

variable {u device : String} {pool next : Pool} {call call' : Call} {returned : Multiset OtkRowKey}

theorem counter_le (ne : pool.counter ≠ 0xFFFFFFFFFFFFFFFF) {count : UInt64} (lt : count ≤ pool.counter) :
    count < pool.counter + 1 := lt_of_le_of_lt lt (lt_add_one_of_ne ne)

variable {k : OtkRowKey} {other : Call}

theorem find_del_eq_none {other : OtkRowKey} (absent : pool.otk.find other = none) :
    (pool.otk.del k).find other = none := by
  rw [find_del, absent, ite_self]

theorem mem_of_mem_del {row : OtkRowKey × String} (mem : row ∈ (pool.otk.del k).rows) :
    row ∈ pool.otk.rows := (mem_keep.mp mem).1

theorem Pool.Recorded.del (ok : pool.Recorded returned) (k : OtkRowKey) : (pool.del k).Recorded returned where
  numbered := ok.numbered
  stored row mem := ok.stored row (mem_of_mem_del mem)
  returned other mem := (ok.returned other mem).imp_right find_del_eq_none
  pruned other mem := (ok.pruned other mem).imp_right find_del_eq_none

theorem Pool.Recorded.execute (ok : pool.Recorded returned) {batch : List (OtkRowKey × String)}
    (fresh : ∀ row ∈ batch, row.1.count ≤ pool.counter ∧ ∀ k ∈ pool.uploaded, k.count ≠ row.1.count) :
    (pool.execute batch).Recorded returned := by
  have kept {k : OtkRowKey} (known : k ∈ pool.uploaded ∧ pool.otk.find k = none) :
      k ∈ (pool.execute batch).uploaded ∧ (pool.execute batch).otk.find k = none := by
    refine ⟨mem_append_left _ known.1, (find_foldl_put_of_notMem _ fun mem => ?_).trans known.2⟩
    obtain ⟨row, hit, rfl⟩ := mem_map.mp mem
    exact (fresh row hit).2 row.1 known.1 rfl
  refine ⟨fun k mem => ?_, fun row mem => ?_, fun k mem => kept (ok.returned k mem), fun k mem => kept (ok.pruned k mem)⟩
  · rcases mem_append.mp mem with old | new
    · exact ok.numbered k old
    · obtain ⟨row, hit, rfl⟩ := mem_map.mp new
      exact (fresh row hit).1
  · rcases mem_or_mem_of_foldl_put mem with new | old
    · exact mem_append_right _ (mem_map_of_mem new)
    · exact mem_append_left _ (ok.stored row old)

theorem claim_of_held (held : call.held = none) : call.claim = none := by
  cases call with
  | claimed _ _ _ => cases held
  | _ => rfl

variable (move : Move u device pool call next call')
include move

theorem Move.recorded (ok : pool.Recorded returned) (own : call.Recorded pool) :
    next.Recorded ((call'.claim.toList : Multiset OtkRowKey) + returned) ∧ call'.Recorded next := by
  cases move with
  | pass open' batch keys held =>
    rw [claim_of_held held]
    refine ⟨by simpa using ok, ⟨by simp [keys], fun row mem => own.fresh row (batch row mem)⟩⟩
  | number open' r batch keys held =>
    rw [claim_of_held held]
    refine ⟨⟨fun k mem => (counter_le r (ok.numbered k mem)).le, ok.stored, by simpa using
      ok.returned, ok.pruned⟩, ⟨by simp [keys], fun row mem => ?_⟩⟩
    rcases batch row mem with old | new
    · exact ⟨(counter_le r (own.fresh row old).1).le, (own.fresh row old).2⟩
    · rw [new]
      exact ⟨le_rfl, fun k known => (counter_le r (ok.numbered k known)).ne⟩
  | read found own fits oldest =>
    refine ⟨by simpa [Call.claim] using ok, ⟨?_, by simp [Call.batch]⟩⟩
    simpa [Call.keys] using ok.stored _ found
  | list found =>
    refine ⟨by simpa [Call.claim] using ok, ⟨fun k mem => ?_, by simp [Call.batch]⟩⟩
    obtain ⟨row, hit, rfl⟩ := found k mem
    exact ok.stored row hit
  | @claim algorithm k v =>
    have left := ok.del k
    refine ⟨⟨left.numbered, left.stored, fun other mem => ?_, left.pruned⟩, ⟨by simp [Call.keys], by simp [Call.batch]⟩⟩
    rcases Multiset.mem_add.mp mem with this | earlier
    · obtain rfl : other = k := by simpa [Call.claim] using this
      exact ⟨own.known other (by simp [Call.keys]), find_del_self _ _⟩
    · exact left.returned other earlier
  | @prune k keys =>
    have left := ok.del k
    refine ⟨⟨left.numbered, left.stored, by simpa [Call.claim] using left.returned, fun other mem => ?_⟩,
      ⟨fun other mem => own.known other (mem_cons_of_mem _ mem), by simp [batch]⟩⟩
    rcases mem_cons.mp mem with rfl | earlier
    · exact ⟨own.known other mem_cons_self, find_del_self _ _⟩
    · exact left.pruned other earlier
  | execute =>
    exact ⟨by simpa [Call.claim, Call.batch] using ok.execute own.fresh, ⟨by simp [Call.keys], by simp [Call.batch]⟩⟩

theorem Move.recorded_other (ok : other.Recorded pool)
    (apart : ∀ row ∈ call.batch, ∀ row' ∈ other.batch, row.1.count ≠ row'.1.count) : other.Recorded next := by
  cases move with
  | pass => exact ok
  | number open' r => exact ⟨ok.known, fun row mem => (ok.fresh row mem).imp_left fun lt =>
      (counter_le r lt).le⟩
  | read => exact ok
  | list => exact ok
  | claim => exact ⟨ok.known, ok.fresh⟩
  | prune => exact ⟨ok.known, ok.fresh⟩
  | execute =>
    refine ⟨fun k mem => mem_append_left _ (ok.known k mem), fun row mem => ?_⟩
    refine (ok.fresh row mem).imp_right fun new k known => ?_
    rcases mem_append.mp known with old | got
    · exact new k old
    · obtain ⟨row', hit, rfl⟩ := mem_map.mp got
      exact apart row' hit row mem

def Disjoint (call other : Call) : Prop := ∀ row ∈ call.batch, ∀ row' ∈ other.batch, row.1.count ≠ row'.1.count

omit move in
theorem disjoint_symm (call other : Call) (apart : Disjoint call other) : Disjoint other call :=
  fun row mem row' mem' eq => apart row' mem' row mem eq.symm

theorem Move.disjoint (ok : other.Recorded pool) (apart : Disjoint call other) : Disjoint call' other := by
  intro row mem row' mem'
  cases move with
  | pass open' batch => exact apart row (batch row mem) row' mem'
  | number open' r batch =>
    rcases batch row mem with old | new
    · exact apart row old row' mem'
    · rw [new]
      exact (counter_le r (ok.fresh row' mem').1).ne'
  | read => cases mem
  | list => cases mem
  | claim => cases mem
  | prune => cases mem
  | execute => cases mem

end Record

/-! ## Whole runs -/

section Runs

variable (user device : String)

structure Accounted (state : Calls Pool Call) : Prop where
  sound : state.Sound claim Pool.Recorded fun _ => Call.Recorded
  apart : state.Apart Disjoint

variable {user device} {state : Calls Pool Call}

theorem Accounted.step (accounted : Accounted state) (e : KeyEvent) :
    Accounted ((keyProtocol user device).step state e) := by
  cases e with
  | start req =>
    have empty : (begin req).batch = [] ∧ (begin req).keys = [] ∧ (begin req).claim = none := by
      cases req <;> exact ⟨rfl, rfl, rfl⟩
    refine ⟨sound_start accounted.sound empty.2.2 accounted.sound.shared ?_ fun _ _ _ recorded => recorded, ?_⟩
    · exact ⟨by simp [keyProtocol, empty], by simp [keyProtocol, empty]⟩
    · exact apart_start accounted.apart disjoint_symm fun c _ => by simp [Disjoint, keyProtocol, empty]
  | move i deviceExists =>
    refine step_move_rule accounted fun c got moves => ?_
    have open' := open_of_moves moves
    have move : Move user device state.shared c _ _ := move_advance deviceExists open'
    obtain ⟨left, own⟩ := move.recorded accounted.sound.shared (accounted.sound.calls i c got)
    refine ⟨sound_move accounted.sound got open' left own fun other c' ne got' recorded => ?_, ?_⟩
    · exact move.recorded_other recorded (accounted.apart i other c c' ne.symm got got')
    · refine apart_move accounted.apart disjoint_symm got fun other c' ne got' => ?_
      exact move.disjoint (accounted.sound.calls other c' got') (accounted.apart i other c c' ne.symm got got')
  | other e => exact e.elim

/-! ### No key twice -/

def Call.Undisturbed (pool : Pool) : Call → Prop
  | .deleting _ key value => pool.otk.find key = some value
  | _ => True

variable {call call' : Call} {key : OtkRowKey} {e : KeyEvent} {pool next : Pool}

variable {index : Nat} {algorithm : String}

def Call.InOrder (pool : Pool) : Call → Prop
  | .adding [] batch => ∀ row ∈ batch, ∀ key ∈ pool.uploaded, key.count < row.1.count
  | _ => True

instance decidableInOrder (pool : Pool) : ∀ call : Call, Decidable (call.InOrder pool) := fun call =>
  match call with
  | .adding [] batch => inferInstanceAs (Decidable (∀ row ∈ batch, ∀ key ∈ pool.uploaded, key.count < row.1.count))
  | .adding (_ :: _) _ | .announcing _ | .reading _ | .deleting _ _ _ | .claimed _ _ _ | .notFound _ | .numbering _ _ _
  | .added | .counting _ | .pruning _ | .removing _ | .counted => .isTrue trivial

variable (user device) in
/-- The key a claim has read is of its algorithm, on record and still no younger than any other of the algorithm. -/
def Call.HoldsOldest (pool : Pool) (call : Call) : Prop :=
  ∀ algorithm key, call.held = some (algorithm, key) →
    key.algorithm = algorithm ∧ key ∈ pool.uploaded ∧ pool.Oldest user device algorithm key

theorem Move.holdsOldest (move : Move user device pool call next call') {returned : Multiset OtkRowKey}
    (ok : pool.Recorded returned) (own : call.HoldsOldest user device pool) :
    call'.HoldsOldest user device next := by
  intro algorithm key h
  cases move with
  | pass _ _ _ held => cases held.symm.trans h
  | number _ _ _ _ held => cases held.symm.trans h
  | read found own fits oldest =>
    obtain ⟨rfl, rfl⟩ := h
    exact ⟨fits, ok.stored _ found, oldest⟩
  | list => cases h
  | claim =>
    obtain ⟨fits, known, oldest⟩ := own algorithm key h
    exact ⟨fits, known, fun row mem => oldest row (mem_of_mem_del mem)⟩
  | prune => cases h
  | execute => cases h

theorem Move.holdsOldest_other {o : Call} (move : Move user device pool call next call') (ordered : call.InOrder pool)
    (own : o.HoldsOldest user device pool) : o.HoldsOldest user device next := by
  intro algorithm key h
  obtain ⟨fits, known, oldest⟩ := own algorithm key h
  cases move with
  | pass => exact ⟨fits, known, oldest⟩
  | number => exact ⟨fits, known, oldest⟩
  | read => exact ⟨fits, known, oldest⟩
  | list => exact ⟨fits, known, oldest⟩
  | claim => exact ⟨fits, known, fun row mem => oldest row (mem_of_mem_del mem)⟩
  | prune => exact ⟨fits, known, fun row mem => oldest row (mem_of_mem_del mem)⟩
  | execute =>
    refine ⟨fits, mem_append_left _ known, fun row mem own' eq => ?_⟩
    rcases mem_or_mem_of_foldl_put mem with new | old
    · exact (ordered row new key known).le
    · exact oldest row old own' eq

variable (user device) in
structure Ordered (state : Calls Pool Call) : Prop where
  accounted : Accounted state
  oldest : state.Sound claim (fun _ _ => True) fun _ => Call.HoldsOldest user device

theorem Move.held (move : Move user device pool call next call') (h : call'.held = some (algorithm, key)) :
    call.held = some (algorithm, key) ∨
      ∃ value, (key, value) ∈ pool.otk.rows ∧ key.isOf user device ∧ key.algorithm = algorithm := by
  cases move with
  | pass _ _ _ held => cases held.symm.trans h
  | number _ _ _ _ held => cases held.symm.trans h
  | read found own fits =>
    obtain ⟨rfl, rfl⟩ := h
    exact .inr ⟨_, found, own, fits⟩
  | list => cases h
  | claim => exact .inl h
  | prune => cases h
  | execute => cases h

theorem held_begin (req : Request) : (begin req).held = none ∧ (begin req).claim = none := by
  cases req <;> exact ⟨rfl, rfl⟩

theorem Ordered.step (ordered : Ordered user device state) (meets : Calls.Moves Call.InOrder state e) :
    Ordered user device ((keyProtocol user device).step state e) := by
  refine ⟨ordered.accounted.step e, ?_⟩
  cases e with
  | start req =>
    obtain ⟨held, open'⟩ := held_begin req
    refine sound_start ordered.oldest open' trivial (fun algorithm key h => ?_) fun _ _ _ own => own
    cases held.symm.trans h
  | move index deviceExists =>
    refine step_move_rule ordered.oldest fun call got moves => ?_
    have open' := open_of_moves moves
    have move : Move user device state.shared call _ _ := move_advance deviceExists open'
    exact sound_move ordered.oldest got open' trivial
      (move.holdsOldest ordered.accounted.sound.shared (ordered.oldest.calls index call got))
      fun other call' _ _ own => move.holdsOldest_other (meets call got) own
  | other e => exact e.elim

variable (user device) in
structure After (algorithm : String) (key : OtkRowKey) (value : String) (index count : Nat) (state : Calls Pool Call) :
    Prop where
  ordered : Ordered user device state
  returned : state.calls[index]? = some (.claimed algorithm key value)
  later : state.Sound claim (fun _ _ => True) fun other _ call =>
    count ≤ other → ∀ key', call.held = some (algorithm, key') → key.count ≤ key'.count

theorem After.step {v : String} {n : Nat} (after : After user device algorithm key v index n state)
    (meets : Calls.Moves Call.InOrder state e) :
    After user device algorithm key v index n ((keyProtocol user device).step state e) := by
  refine ⟨after.ordered.step meets, getElem?_step_of_through after.returned (fun _ _ => rfl) e, ?_⟩
  have oldest := (after.ordered.oldest.calls index _ after.returned algorithm key rfl).2.2
  cases e with
  | start req =>
    obtain ⟨held, open'⟩ := held_begin req
    refine sound_start after.later open' trivial (fun _ key' h => ?_) fun _ _ _ own => own
    cases held.symm.trans h
  | move moved deviceExists =>
    refine step_move_rule after.later fun call got moves => ?_
    have open' := open_of_moves moves
    have move : Move user device state.shared call _ _ := move_advance deviceExists open'
    refine sound_move after.later got open' trivial (fun bound key' h => ?_) fun _ _ _ _ own => own
    rcases move.held h with eq | ⟨v', stored, own, fits⟩
    · exact after.later.calls moved call got bound key' eq
    · exact oldest _ stored own fits
  | other e => exact e.elim

/-! ### Claims, prunings and uploads at once -/

def Pool.start (otk : Store OtkRowKey String) (counter : UInt64) : Pool := ⟨otk, counter, otk.keys, []⟩

end Runs

section Story

def twoKeys : Store OtkRowKey String :=
  (Store.empty.put ⟨"@u:h", "D", 3, "signed_curve25519:A"⟩ "a").put ⟨"@u:h", "D", 4, "signed_curve25519:B"⟩ "b"

def claimStart : KeyEvent := .start (.take "signed_curve25519")

def inTurn : List KeyEvent :=
  [claimStart, .move 0 true, .move 0 true, .move 0 true, .start (.add [⟨"signed_curve25519:C", "c", true⟩] 10), .move 1 true,
    .move 1 true, .move 1 true, claimStart, .move 2 true, .move 2 true, .move 2 true]

def atOnce : List KeyEvent :=
  [claimStart, claimStart, .move 0 true, .move 1 true, .move 0 true, .move 1 true, .move 0 true, .move 1 true]

end Story

end Wbfuwunel.Users.OneTime
