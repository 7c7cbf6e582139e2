import Wbfuwunel.Foundation.Delta
import Wbfuwunel.Foundation.Runs
import Wbfuwunel.Foundation.Store

/-! Room states as layers of differences: `rooms/state_compressor`.

A state is stored as what it adds to and removes from another one. The stack of a state lists it and the states below it;
here its last frame, the state itself, comes first.
-/

set_option autoImplicit false

namespace Wbfuwunel.Rooms

open Foundation List Function Option Store Finset

abbrev ShortStateHash := UInt64

/-- A short state key and a short event id, eight bytes each. -/
structure CompressedStateEvent where
  bytes : Bytes
  width : bytes.length = 16

namespace CompressedStateEvent

theorem bytes_injective : Injective bytes := by
  rintro ⟨bytes, width⟩ ⟨o, width'⟩ rfl
  rfl

instance entryOrder : LinearOrder CompressedStateEvent := LinearOrder.lift' bytes bytes_injective

def ofBytes (bytes : Bytes) : Option CompressedStateEvent := if width : bytes.length = 16 then some ⟨bytes, width⟩ else none

@[simp] theorem ofBytes_bytes (x : CompressedStateEvent) : ofBytes x.bytes = some x := dif_pos x.width

def shortstatekey (entry : CompressedStateEvent) : UInt64 := fromBeBytes64 (entry.bytes.take 8)

end CompressedStateEvent

open CompressedStateEvent

def compressStateEvent (shortstatekey shorteventid : UInt64) : CompressedStateEvent :=
  ⟨toBeBytes64 shortstatekey ++ toBeBytes64 shorteventid, by simp⟩

/-- The set is ordered by the bytes. -/
abbrev CompressedState := Finset CompressedStateEvent

structure StateDiff where
  parent : Option ShortStateHash
  added : CompressedState
  removed : CompressedState
  deriving DecidableEq

structure ShortStateInfo where
  shortstatehash : ShortStateHash
  fullState : CompressedState
  added : CompressedState
  removed : CompressedState

def fullOf (stack : List ShortStateInfo) : CompressedState := (stack.head?.map ShortStateInfo.fullState).getD ∅

/-! ## The row of a difference -/

def saveStatediff (diff : StateDiff) : Bytes :=
  toBeBytes64 (diff.parent.getD 0) ++ (diff.added.sort.flatMap bytes ++
    if diff.removed = ∅ then [] else toBeBytes64 0 ++ diff.removed.sort.flatMap bytes)

/-- The reading loop. Every turn takes at least eight bytes, so it makes no more turns than there are bytes. -/
def readEntries : (turns : Nat) → (addMode : Bool) → Bytes → (added removed : CompressedState) →
    CompressedState × CompressedState
  | 0, _, _, added, removed => (added, removed)
  | turns + 1, addMode, rest, added, removed =>
    match ofBytes (rest.take 16) with
    | none => (added, removed)
    | some entry =>
      -- A word of zeros where a short state key is due opens the removed entries.
      if addMode && (toBeBytes64 0).isPrefixOf entry.bytes then readEntries turns false (rest.drop 8) added removed
      else if addMode then readEntries turns addMode (rest.drop 16) (insert entry added) removed
      else readEntries turns addMode (rest.drop 16) added (insert entry removed)

variable (rows : Store ShortStateHash Bytes)

def getStatediff (shortstatehash : ShortStateHash) : Option StateDiff :=
  (rows.find shortstatehash).map fun value =>
    let parent := fromBeBytes64 (value.take 8)
    let entries := readEntries value.length true (value.drop 8) ∅ ∅
    { parent := if parent = 0 then none else some parent, added := entries.1, removed := entries.2 }

theorem take_bytes (x : CompressedStateEvent) (rest : Bytes) : (x.bytes ++ rest).take 16 = x.bytes := by
  rw [← x.width, take_left]

theorem drop_bytes (x : CompressedStateEvent) (rest : Bytes) : (x.bytes ++ rest).drop 16 = rest := by
  rw [← x.width, drop_left]

theorem not_sentinel {x : CompressedStateEvent} (keyed : x.shortstatekey ≠ 0) :
    (toBeBytes64 0).isPrefixOf x.bytes = false := by
  rw [Bool.eq_false_iff]
  intro pre
  obtain ⟨rest, split⟩ := isPrefixOf_iff_prefix.mp pre
  refine keyed ?_
  rw [shortstatekey, ← split]
  exact fromBeBytes64_toBeBytes64 0

theorem readEntries_added {entries : List CompressedStateEvent} (keyed : ∀ x ∈ entries, x.shortstatekey ≠ 0)
    (turns : Nat) (rest : Bytes) (added removed : CompressedState) :
    readEntries (turns + entries.length) true (entries.flatMap bytes ++ rest) added removed =
      readEntries turns true rest (entries.toFinset ∪ added) removed := by
  induction entries generalizing added with
  | nil => simp
  | cons x entries ih =>
    have next := ih (fun o mem => keyed o (mem_cons_of_mem _ mem)) (insert x added)
    rw [length_cons, ← Nat.add_assoc, readEntries, flatMap_cons, append_assoc, take_bytes, drop_bytes, ofBytes_bytes]
    simp only [not_sentinel (keyed x mem_cons_self), next]
    simp

variable (entries : List CompressedStateEvent)

theorem readEntries_removed (turns : Nat) (rest : Bytes) (added removed : CompressedState) :
    readEntries (turns + entries.length) false (entries.flatMap bytes ++ rest) added removed =
      readEntries turns false rest added (entries.toFinset ∪ removed) := by
  induction entries generalizing removed with
  | nil => simp
  | cons x entries ih =>
    rw [length_cons, ← Nat.add_assoc, readEntries, flatMap_cons, append_assoc, take_bytes, drop_bytes]
    simp only [ih]
    simp

theorem readEntries_nil (turns : Nat) (addMode : Bool) (added removed : CompressedState) :
    readEntries turns addMode [] added removed = (added, removed) := by
  cases turns <;> rfl

theorem readEntries_sentinel (turns : Nat) (x : CompressedStateEvent) (rest : Bytes) (added removed : CompressedState) :
    readEntries (turns + 1) true (toBeBytes64 0 ++ (x.bytes ++ rest)) added removed =
      readEntries turns false (x.bytes ++ rest) added removed := by
  have long : ((toBeBytes64 0 ++ (x.bytes ++ rest)).take 16).length = 16 := by
    simp [x.width]
    omega
  have opened : ofBytes ((toBeBytes64 0 ++ (x.bytes ++ rest)).take 16) =
      some ⟨(toBeBytes64 0 ++ (x.bytes ++ rest)).take 16, long⟩ := dif_pos long
  have zeros : (toBeBytes64 0).isPrefixOf ((toBeBytes64 0 ++ (x.bytes ++ rest)).take 16) := by
    rw [take_append]
    simp [take_of_length_le]
  have behind : (toBeBytes64 0 ++ (x.bytes ++ rest)).drop 8 = x.bytes ++ rest := drop_left' (by simp)
  rw [readEntries, opened]
  simp only [zeros, Bool.and_self, if_true, behind]

theorem length_flatMap_bytes : (entries.flatMap bytes).length = 16 * entries.length := by
  induction entries with
  | nil => rfl
  | cons x entries ih =>
    simp only [flatMap_cons, length_append, x.width, length_cons]
    omega

theorem readEntries_sets {added removed : CompressedState} (keyed : ∀ entry ∈ added, entry.shortstatekey ≠ 0) {turns : Nat}
    (enough : added.card + removed.card + 1 ≤ turns) :
    readEntries turns true (added.sort.flatMap bytes ++
      if removed = ∅ then [] else toBeBytes64 0 ++ removed.sort.flatMap bytes) ∅ ∅ =
      (added, removed) := by
  have ord : ∀ entry ∈ added.sort, entry.shortstatekey ≠ 0 := fun entry mem =>
    keyed entry ((mem_sort _).mp mem)
  obtain ⟨spare, rfl⟩ : ∃ spare, turns = spare + (removed.card + 1) + added.card :=
    ⟨turns - (added.card + removed.card + 1), by omega⟩
  rw [← length_sort (· ≤ ·) (s := added), readEntries_added ord, sort_toFinset, union_empty]
  split
  next none =>
    rw [readEntries_nil, none]
  next some =>
    have filled : removed.sort ≠ [] := fun none => some (by rw [← sort_toFinset removed (· ≤ ·), none, toFinset_nil])
    obtain ⟨entry, rest, split⟩ := exists_cons_of_ne_nil filled
    have toSet : (entry :: rest).toFinset = removed := by rw [← split, sort_toFinset]
    have size : removed.card = (entry :: rest).length := by rw [← split, length_sort]
    have run := readEntries_removed (entry :: rest) spare [] added ∅
    rw [append_nil] at run
    rw [split, flatMap_cons, ← Nat.add_assoc, readEntries_sentinel, ← flatMap_cons, size, run, readEntries_nil, toSet,
      union_empty]

variable {diff : StateDiff}

theorem getStatediff_put (shortstatehash : ShortStateHash) (keyed : ∀ x ∈ diff.added, x.shortstatekey ≠ 0)
    (parent : diff.parent ≠ some 0) :
    getStatediff (rows.put shortstatehash (saveStatediff diff)) shortstatehash = some diff := by
  have enough : diff.added.card + diff.removed.card + 1 ≤ (saveStatediff diff).length := by
    simp only [saveStatediff, length_append, toBeBytes64_length, length_flatMap_bytes, length_sort]
    split
    next none =>
      simp only [none, card_empty]
      omega
    · simp only [length_append, length_flatMap_bytes, length_sort]
      omega
  have entries := readEntries_sets keyed enough
  have a : (saveStatediff diff).take 8 = toBeBytes64 (diff.parent.getD 0) := take_left' (by simp)
  have others : (saveStatediff diff).drop 8 = diff.added.sort.flatMap bytes ++
      if diff.removed = ∅ then [] else toBeBytes64 0 ++ diff.removed.sort.flatMap bytes :=
    drop_left' (by simp)
  have base : (if diff.parent.getD 0 = 0 then none else some (diff.parent.getD 0)) = diff.parent := by
    cases parents : diff.parent with
    | none => rfl
    | some hash =>
      have nonzero : hash ≠ 0 := fun zero => parent (zero ▸ parents)
      simp [nonzero]
  simp only [getStatediff, find_put_self, map_some, a, others, entries, fromBeBytes64_toBeBytes64, base]

theorem getStatediff_put_of_ne {shortstatehash o : ShortStateHash} (v : Bytes) (ne : o ≠ shortstatehash) :
    getStatediff (rows.put shortstatehash v) o = getStatediff rows o := by
  rw [getStatediff, getStatediff, find_put_of_ne _ _ ne]

/-! ## Saving -/

def checked (value : Nat) : Option Nat := if value < 2 ^ 64 then some value else none

/-- The difference to write, against the top of a stack or against a state further down. -/
def saveStateFromDiff : List ShortStateInfo → (statediffnew statediffremoved : CompressedState) → (diffToSibling : Nat) →
    Option StateDiff
  | [], statediffnew, statediffremoved, _ => do
    let _ ← checked (statediffnew.card + statediffremoved.card)
    -- There is no parent layer.
    return ⟨none, statediffnew, statediffremoved⟩
  | parent :: parentStates, statediffnew, statediffremoved, diffToSibling => do
    let diffsum ← checked (statediffnew.card + statediffremoved.card)
    let merged := mergeDelta parent.added parent.removed statediffnew statediffremoved
    if (parent :: parentStates).length > 3 then
      -- Too many layers.
      saveStateFromDiff parentStates merged.1 merged.2 diffsum
    else
      let parentDiff ← checked (parent.added.card + parent.removed.card)
      let square ← checked (diffsum * diffsum)
      let twice ← checked (2 * diffToSibling)
      let bound ← checked (twice * parentDiff)
      if square ≥ bound then saveStateFromDiff parentStates merged.1 merged.2 diffsum
      else return ⟨some parent.shortstatehash, statediffnew, statediffremoved⟩

structure Compressor (Digest : Type) where
  statediffs : Store ShortStateHash Bytes
  hashes : Digest → Option ShortStateHash
  cache : ShortStateHash → Option (List ShortStateInfo)

structure HashSetCompressStateEvent where
  shortstatehash : ShortStateHash
  added : CompressedState
  removed : CompressedState
  deriving DecidableEq

namespace Compressor

variable {Digest : Type}

def cacheShortstatehashInfo (service : Compressor Digest) (shortstatehash : ShortStateHash) (stack : List ShortStateInfo) :
    Compressor Digest :=
  { service with cache := update service.cache shortstatehash (some stack) }

/-- `depth` bounds the layers looked at. -/
def loadShortstatehashInfo : (depth : Nat) → Compressor Digest → ShortStateHash →
    Option (List ShortStateInfo × Compressor Digest)
  | 0, _, _ => none
  | depth + 1, service, shortstatehash =>
    match service.cache shortstatehash with
    | some stack => some (stack, service)
    | none => do
      let diff ← getStatediff service.statediffs shortstatehash
      match diff.parent with
      | none =>
        let stack := [⟨shortstatehash, diff.added, diff.added, diff.removed⟩]
        return (stack, service.cacheShortstatehashInfo shortstatehash stack)
      | some parent =>
        let loaded ← loadShortstatehashInfo depth service parent
        let top ← loaded.1.head?
        let stack := ⟨shortstatehash, (top.fullState ∪ diff.added) \ diff.removed, diff.added, diff.removed⟩ :: loaded.1
        return (stack, loaded.2.cacheShortstatehashInfo shortstatehash stack)

variable [DecidableEq Digest] (calculateHash : CompressedState → Digest) (depth : Nat)

/-- `previous` is the room's state hash, `next` the count that becomes the hash of a state not seen before. -/
def saveState (service : Compressor Digest) (previous : Option ShortStateHash) (state : CompressedState) (next : ShortStateHash) :
    Option HashSetCompressStateEvent × Compressor Digest :=
  let stateHash := calculateHash state
  let existing := service.hashes stateHash
  match existing.filter fun shortstatehash => previous = some shortstatehash with
  | some shortstatehash => (some ⟨shortstatehash, ∅, ∅⟩, service)
  | none =>
    let loaded := (previous.bind (loadShortstatehashInfo depth service)).getD ([], service)
    let statediffnew := state \ fullOf loaded.1
    let statediffremoved := fullOf loaded.1 \ state
    match existing with
    | some shortstatehash => (some ⟨shortstatehash, statediffnew, statediffremoved⟩, loaded.2)
    | none =>
      -- Every state change is two event changes on average.
      match saveStateFromDiff loaded.1 statediffnew statediffremoved 2 with
      | none => (none, loaded.2)
      | some diff =>
        (some ⟨next, statediffnew, statediffremoved⟩, { loaded.2 with
          statediffs := loaded.2.statediffs.put next (saveStatediff diff)
          hashes := update loaded.2.hashes stateHash (some next) })

end Compressor

open Compressor

/-! ## Layers -/

/-- A stack that the rows below a hash spell out, each row the difference of its state to the one below. -/
inductive Layers (rows : Store ShortStateHash Bytes) : Option ShortStateHash → List ShortStateInfo → Prop
  | bottom : Layers rows none []
  | layer {shortstatehash : ShortStateHash} {diff : StateDiff} {below : List ShortStateInfo} {full : CompressedState} :
      getStatediff rows shortstatehash = some diff → Layers rows diff.parent below →
      IsDelta (fullOf below) full diff.added diff.removed →
      Layers rows (some shortstatehash) (⟨shortstatehash, full, diff.added, diff.removed⟩ :: below)

namespace Layers

variable {rows : Store ShortStateHash Bytes} {stack : List ShortStateInfo} {hash : Option ShortStateHash}

theorem unique {o : List ShortStateInfo} (a : Layers rows hash stack) (b : Layers rows hash o) : stack = o := by
  induction a generalizing o with
  | bottom =>
    cases b
    rfl
  | layer read _ delta ih =>
    cases b with
    | layer read' lt' delta' =>
      obtain rfl := some.inj (read.symm.trans read')
      obtain rfl := ih lt'
      rw [← delta.apply, ← delta'.apply]

theorem put {next : ShortStateHash} (fresh : rows.find next = none) (v : Bytes) (layers : Layers rows hash stack) :
    Layers (rows.put next v) hash stack := by
  induction layers with
  | bottom => exact .bottom
  | @layer shortstatehash diff lt full read _ delta ih =>
    have ne : shortstatehash ≠ next := by
      rintro rfl
      simp [getStatediff, fresh] at read
    exact .layer (by rwa [getStatediff_put_of_ne _ _ ne]) ih delta

theorem find_isSome {shortstatehash : ShortStateHash} (layers : Layers rows (some shortstatehash) stack) :
    (rows.find shortstatehash).isSome := by
  cases layers with
  | layer read _ _ =>
    obtain ⟨v, got, -⟩ := map_eq_some_iff.mp read
    simp [got]

end Layers

theorem saveStateFromDiff_spec {rows : Store ShortStateHash Bytes} {s : CompressedState} {stack : List ShortStateInfo}
    {hash : Option ShortStateHash} {statediffnew statediffremoved : CompressedState} {diffToSibling : Nat}
    (layers : Layers rows hash stack) (h : stack.length ≤ 4)
    (delta : IsDelta (fullOf stack) s statediffnew statediffremoved)
    (saved : saveStateFromDiff stack statediffnew statediffremoved diffToSibling = some diff) :
    ∃ lt, Layers rows diff.parent lt ∧ IsDelta (fullOf lt) s diff.added diff.removed ∧ lt.length ≤ 3 := by
  induction layers generalizing statediffnew statediffremoved diffToSibling with
  | bottom =>
    obtain ⟨_, _, rfl⟩ := map_eq_some_iff.mp ((map_eq_bind).trans saved)
    exact ⟨[], .bottom, delta, by simp⟩
  | @layer shortstatehash diff' lt full read lt' delta' ih =>
    have deeper : ∀ {diffsum}, saveStateFromDiff lt (mergeDelta diff'.added diff'.removed statediffnew statediffremoved).1
        (mergeDelta diff'.added diff'.removed statediffnew statediffremoved).2 diffsum = some diff → _ :=
      ih (by simp at h; omega) (delta'.merge delta)
    simp only [saveStateFromDiff, bind_eq_bind, bind_eq_some_iff] at saved
    obtain ⟨diffsum, -, saved⟩ := saved
    split at saved
    · exact deeper saved
    next few =>
      simp only [bind_eq_some_iff] at saved
      obtain ⟨parentDiff, -, square, -, twice, -, le, -, saved⟩ := saved
      split at saved
      · exact deeper saved
      · obtain rfl := some.inj saved
        exact ⟨_, .layer read lt' delta', delta, by omega⟩

namespace Compressor

variable {Digest : Type}

def CacheSound (service : Compressor Digest) : Prop :=
  ∀ shortstatehash stack, service.cache shortstatehash = some stack → Layers service.statediffs (some shortstatehash) stack

variable {v : Compressor Digest} {shortstatehash : ShortStateHash} {stack : List ShortStateInfo}

theorem CacheSound.cacheShortstatehashInfo (h : v.CacheSound) (layers : Layers v.statediffs (some shortstatehash) stack) :
    (v.cacheShortstatehashInfo shortstatehash stack).CacheSound := by
  intro o stack' cached
  by_cases eq : o = shortstatehash
  · subst eq
    obtain rfl : stack = stack' := by simpa [cacheShortstatehashInfo] using cached
    exact layers
  · refine h o stack' ?_
    simpa [Compressor.cacheShortstatehashInfo, update_of_ne eq] using cached

theorem loadShortstatehashInfo_spec (sound : v.CacheSound) {depth : Nat}
    (layers : Layers v.statediffs (some shortstatehash) stack) (deep : stack.length ≤ depth) :
    ∃ cache, loadShortstatehashInfo depth v shortstatehash = some (stack, { v with cache := cache }) ∧
      CacheSound { v with cache := cache } := by
  induction depth generalizing shortstatehash stack with
  | zero =>
    cases layers
    simp at deep
  | succ depth ih =>
    cases cached : v.cache shortstatehash with
    | some stack' =>
      obtain rfl := (sound _ _ cached).unique layers
      exact ⟨v.cache, by rw [loadShortstatehashInfo, cached], sound⟩
    | none =>
      have kept := layers
      cases layers with
      | @layer _ diff lt full read lt' delta =>
        cases parent : diff.parent with
        | none =>
          rw [parent] at lt'
          cases lt'
          obtain rfl : full = diff.added := by rw [delta.added_eq]; exact (sdiff_empty).symm
          refine ⟨update v.cache shortstatehash _, ?_, sound.cacheShortstatehashInfo kept⟩
          simp [loadShortstatehashInfo, cached, read, parent, cacheShortstatehashInfo]
        | some hash =>
          rw [parent] at lt'
          obtain ⟨cache, loaded, sound'⟩ := ih lt' (by simpa using deep)
          refine ⟨update cache shortstatehash _, ?_, sound'.cacheShortstatehashInfo kept⟩
          cases lt' with
          | layer read' lt'' delta' =>
            obtain rfl := delta.apply
            simp [loadShortstatehashInfo, cached, read, parent, loaded, cacheShortstatehashInfo, fullOf]

theorem loadShortstatehashInfo_none (h : v.CacheSound) (depth : Nat) (absent : v.statediffs.find shortstatehash = none) :
    loadShortstatehashInfo depth v shortstatehash = none := by
  cases depth with
  | zero => rfl
  | succ depth =>
    cases cached : v.cache shortstatehash with
    | some stack => simpa [absent] using (h _ _ cached).find_isSome
    | none => simp [loadShortstatehashInfo, cached, getStatediff, absent]

end Compressor

/-! ## Runs -/

structure SavedStates (Digest : Type) where
  service : Compressor Digest
  saved : List (ShortStateHash × CompressedState)

inductive CompressorEvent where
  /-- A new state, the previous state's hash, and the count to use if the state was not seen before. -/
  | save (previous : Option ShortStateHash) (state : CompressedState) (next : ShortStateHash)
  | load (shortstatehash : ShortStateHash)
  /-- The cache holds so many stacks; any may leave to make room. -/
  | evict (shortstatehash : ShortStateHash)
  | clearCache

namespace SavedStates

variable {Digest : Type} [DecidableEq Digest] (calculateHash : CompressedState → Digest) (depth : Nat)

def start : SavedStates Digest := ⟨⟨Store.empty, fun _ => none, fun _ => none⟩, []⟩

variable (states : SavedStates Digest)

def step : CompressorEvent → SavedStates Digest
  | .save previous state next =>
    let result := states.service.saveState calculateHash depth previous state next
    { service := result.2
      saved := (result.1.map fun saved => (saved.shortstatehash, state)).toList ++ states.saved }
  | .load shortstatehash =>
    { states with service :=
        ((states.service.loadShortstatehashInfo depth shortstatehash).map Prod.snd).getD states.service }
  | .evict shortstatehash =>
    { states with service.cache := update states.service.cache shortstatehash none }
  | .clearCache => { states with service.cache := fun _ => none }

/-- Short state keys are not zero, the previous state is one of those saved, and a state not saved before has a digest and
a count of its own, the count not zero. -/
def Allowed : CompressorEvent → Prop
  | .save previous state next =>
    (∀ entry ∈ state, entry.shortstatekey ≠ 0) ∧ (∀ hash, previous = some hash → hash ∈ states.saved.map Prod.fst) ∧
      (∀ saved ∈ states.saved, calculateHash saved.2 = calculateHash state → saved.2 = state) ∧
      next ≠ 0 ∧ next ∉ states.saved.map Prod.fst
  | _ => True

structure Sound : Prop where
  cache : states.service.CacheSound
  hashes : ∀ digest hash, states.service.hashes digest = some hash →
    ∃ state, (hash, state) ∈ states.saved ∧ calculateHash state = digest
  rows : ∀ hash, (states.service.statediffs.find hash).isSome → hash ∈ states.saved.map Prod.fst
  nonzero : ∀ saved ∈ states.saved, saved.1 ≠ 0
  layers : ∀ saved ∈ states.saved, ∃ stack, Layers states.service.statediffs (some saved.1) stack ∧
    fullOf stack = saved.2 ∧ stack.length ≤ 4

variable {calculateHash} {depth}

section Reading

omit [DecidableEq Digest]

variable {states : SavedStates Digest}

section

variable (h : states.Sound calculateHash)
include h

theorem Sound.withCache {cache : ShortStateHash → Option (List ShortStateInfo)}
    (kept : Compressor.CacheSound { states.service with cache := cache }) :
    Sound calculateHash { states with service.cache := cache } :=
  ⟨kept, h.hashes, h.rows, h.nonzero, h.layers⟩

variable {s : CompressedState}

theorem Sound.load (deep : 4 ≤ depth) {shortstatehash : ShortStateHash} (saved : (shortstatehash, s) ∈ states.saved) :
    ∃ stack cache, states.service.loadShortstatehashInfo depth shortstatehash =
        some (stack, { states.service with cache := cache }) ∧
      Layers states.service.statediffs (some shortstatehash) stack ∧ fullOf stack = s ∧ stack.length ≤ 4 ∧
      Compressor.CacheSound { states.service with cache := cache } := by
  obtain ⟨stack, layers, full, short⟩ := h.layers _ saved
  obtain ⟨cache, loaded, kept⟩ := loadShortstatehashInfo_spec h.cache layers (short.trans deep)
  exact ⟨stack, cache, loaded, layers, full, short, kept⟩

theorem Sound.previous (deep : 4 ≤ depth) {prev : Option ShortStateHash}
    (known : ∀ hash, prev = some hash → hash ∈ states.saved.map Prod.fst) :
    ∃ stack cache, (prev.bind (states.service.loadShortstatehashInfo depth)).getD ([], states.service) =
        (stack, { states.service with cache := cache }) ∧
      Layers states.service.statediffs prev stack ∧ stack.length ≤ 4 ∧
      Compressor.CacheSound { states.service with cache := cache } := by
  cases prev with
  | none => exact ⟨[], states.service.cache, rfl, .bottom, by simp, h.cache⟩
  | some hash =>
    obtain ⟨saved, mem, rfl⟩ := mem_map.mp (known hash rfl)
    obtain ⟨stack, cache, loaded, layers, -, k, kept⟩ := h.load deep mem
    exact ⟨stack, cache, by simp [loaded], layers, k, kept⟩

theorem Sound.again {hash : ShortStateHash} (saved : (hash, s) ∈ states.saved) :
    Sound calculateHash { states with saved := (hash, s) :: states.saved } where
  cache := h.cache
  hashes digest o got := by
    obtain ⟨s', mem, hashed⟩ := h.hashes digest o got
    exact ⟨s', mem_cons_of_mem _ mem, hashed⟩
  rows o got := mem_cons_of_mem _ (h.rows o got)
  nonzero := forall_mem_cons.mpr ⟨h.nonzero _ saved, h.nonzero⟩
  layers := forall_mem_cons.mpr ⟨h.layers _ saved, h.layers⟩

end

theorem sound_start : Sound calculateHash (start : SavedStates Digest) := by
  constructor <;> simp [start, Compressor.CacheSound, Store.find, Store.empty]

end Reading

variable {states : SavedStates Digest} {next : ShortStateHash} {state : CompressedState}

theorem Sound.write (h : states.Sound calculateHash) {diff : StateDiff} {base : List ShortStateInfo}
    (keyed : ∀ entry ∈ state, entry.shortstatekey ≠ 0) (nonzero : next ≠ 0) (fresh : next ∉ states.saved.map Prod.fst)
    (layers : Layers states.service.statediffs diff.parent base)
    (delta : IsDelta (fullOf base) state diff.added diff.removed) (short : base.length ≤ 3) : Sound calculateHash {
      service := { states.service with
        statediffs := states.service.statediffs.put next (saveStatediff diff)
        hashes := update states.service.hashes (calculateHash state) (some next) }
      saved := (next, state) :: states.saved } := by
  have absent : states.service.statediffs.find next = none := by
    by_contra hit
    exact fresh (h.rows next (isSome_iff_ne_none.mpr hit))
  have added : ∀ entry ∈ diff.added, entry.shortstatekey ≠ 0 := fun entry mem =>
    keyed entry (sdiff_subset (delta.added_eq ▸ mem))
  have parent : diff.parent ≠ some 0 := by
    intro zero
    rw [zero] at layers
    obtain ⟨saved, mem, same⟩ := mem_map.mp (h.rows 0 layers.find_isSome)
    exact h.nonzero saved mem same
  have top : Layers (states.service.statediffs.put next (saveStatediff diff)) (some next)
      (⟨next, state, diff.added, diff.removed⟩ :: base) :=
    .layer (getStatediff_put _ _ added parent) (layers.put absent _) delta
  constructor
  · intro hash stack cached
    exact (h.cache hash stack cached).put absent _
  · intro digest hash got
    by_cases same : digest = calculateHash state
    · subst same
      obtain rfl : next = hash := by simpa using got
      exact ⟨state, mem_cons_self, rfl⟩
    · obtain ⟨state', mem, hashed⟩ := h.hashes digest hash (by simpa [update_of_ne same] using got)
      exact ⟨state', mem_cons_of_mem _ mem, hashed⟩
  · intro hash got
    by_cases same : hash = next
    · simp [same]
    · rw [find_put_of_ne _ _ same] at got
      exact mem_cons_of_mem _ (h.rows hash got)
  · exact forall_mem_cons.mpr ⟨nonzero, h.nonzero⟩
  · refine forall_mem_cons.mpr ⟨⟨_, top, rfl, Nat.succ_le_of_lt (Nat.lt_succ_of_le short)⟩, fun saved mem => ?_⟩
    obtain ⟨stack, layers', full, short'⟩ := h.layers saved mem
    exact ⟨stack, layers'.put absent _, full, short'⟩

theorem Sound.save (h : states.Sound calculateHash) (deep : 4 ≤ depth) {prev : Option ShortStateHash}
    (ok : states.Allowed calculateHash (.save prev state next)) :
    Sound calculateHash (states.step calculateHash depth (.save prev state next)) := by
  obtain ⟨keyed, known, apart, nonzero, fresh⟩ := ok
  obtain ⟨stack, c, loaded, layers, short, kept⟩ := h.previous deep known
  have eq : ∀ hash, states.service.hashes (calculateHash state) = some hash → (hash, state) ∈ states.saved := by
    intro hash got
    obtain ⟨state', mem, hashed⟩ := h.hashes _ _ got
    exact apart _ mem hashed ▸ mem
  simp only [step, saveState, loaded]
  split
  next hash got =>
    exact h.again (eq hash (filter_eq_some_iff.mp got).1)
  · split
    next hash got =>
      exact (h.withCache kept).again (eq hash got)
    · split
      · exact h.withCache kept
      next diff got =>
        obtain ⟨lt, layers', delta, short'⟩ := saveStateFromDiff_spec layers short (isDelta_self _ state) got
        exact (h.withCache kept).write keyed nonzero fresh layers' delta short'

theorem Sound.step (h : states.Sound calculateHash) (deep : 4 ≤ depth) {e : CompressorEvent}
    (ok : states.Allowed calculateHash e) : Sound calculateHash (states.step calculateHash depth e) := by
  cases e with
  | save prev state next => exact h.save deep ok
  | load hash =>
    cases got : states.service.statediffs.find hash with
    | none => simpa [SavedStates.step, loadShortstatehashInfo_none h.cache depth got] using h
    | some v =>
      obtain ⟨saved, mem, rfl⟩ := mem_map.mp (h.rows hash (by simp [got]))
      obtain ⟨stack, c, loaded, -, -, -, kept⟩ := h.load deep mem
      simpa [SavedStates.step, loaded] using h.withCache kept
  | evict hash =>
    refine h.withCache fun o stack cached => h.cache o stack ?_
    by_cases eq : o = hash
    · simp [eq] at cached
    · simpa [update_of_ne eq] using cached
  | clearCache => exact h.withCache fun _ _ cached => by simp at cached

/-- Every state saved loads back as it was, through at most four layers, and there is no row that was not saved. -/
theorem states_load_back {depth : Nat} (deep : 4 ≤ depth) {events : List CompressorEvent}
    (admits : Admits (step calculateHash depth) (Allowed calculateHash) start events) :
    Along (step calculateHash depth) (fun states => (∀ hash state, (hash, state) ∈ states.saved → ∃ stack service,
          states.service.loadShortstatehashInfo depth hash = some (stack, service) ∧
          stack.head?.map ShortStateInfo.fullState = some state ∧ stack.length ≤ 4) ∧
        ∀ hash, states.service.statediffs.contains hash → hash ∈ states.saved.map Prod.fst)
      start events := by
  refine (along_of_keeps (fun _ _ h ok => h.step deep ok) sound_start admits).imp fun states h => ?_
  refine ⟨fun hash state saved => ?_, h.rows⟩
  obtain ⟨stack, c, loaded, layers, full, k, -⟩ := h.load deep saved
  refine ⟨stack, _, loaded, ?_, k⟩
  cases layers
  rw [← full]
  rfl

/-- A room as it was made, and with its first member. -/
def created : CompressedState := {compressStateEvent 1 1}

@[inherit_doc created]
def joined : CompressedState := {compressStateEvent 1 1, compressStateEvent 2 2}

def layered : List CompressorEvent := [.save none created 1, .clearCache, .save (some 1) joined 2]

theorem layered_admits : Admits (step id 4) (Allowed id) start layered := by
  have saved : (step id 4 (step id 4 start (.save none created 1)) .clearCache).saved = [(1, created)] := by decide +kernel
  refine ⟨⟨by decide, by simp, by simp [start], by decide, by simp [start]⟩, trivial, ⟨by decide, ?_⟩, trivial⟩
  rw [saved]
  exact ⟨by simp, fun _ _ => id, by decide, by simp⟩

theorem states_load_back_layered : Along (step id 4)
      (fun states => (∀ hash state, (hash, state) ∈ states.saved → ∃ stack service,
          states.service.loadShortstatehashInfo 4 hash = some (stack, service) ∧
          stack.head?.map ShortStateInfo.fullState = some state ∧ stack.length ≤ 4) ∧
        ∀ hash, states.service.statediffs.contains hash → hash ∈ states.saved.map Prod.fst)
      start layered ∧
      -- The second state is kept as its difference to the first.
      getStatediff (run (step id 4) start layered).service.statediffs 2 = some ⟨some 1, {compressStateEvent 2 2}, ∅⟩ := by
  refine ⟨states_load_back (le_refl 4) layered_admits, ?_⟩
  decide +kernel

/-- The change that `save_state` answers leads from the room's state to the new one. -/
theorem save_state_reports_change (deep : 4 ≤ depth) {events : List CompressorEvent}
    (admits : Admits (step calculateHash depth) (Allowed calculateHash) start events) :
    Admits (step calculateHash depth)
      (fun states event => ∀ previous state next answer old, event = .save previous state next →
        (states.service.saveState calculateHash depth previous state next).1 = some answer →
        (previous = none ∧ old = ∅ ∨ ∃ hash, previous = some hash ∧ (hash, old) ∈ states.saved) →
        IsDelta old state answer.added answer.removed)
      start events := by
  refine admits.imp_of_keeps (fun _ _ h ok => h.step deep ok) ?_ sound_start
  rintro states _ h ok previous state next answer old rfl got before
  obtain ⟨-, -, apart, -⟩ := ok
  have full : fullOf ((previous.bind (states.service.loadShortstatehashInfo depth)).getD ([], states.service)).1 = old := by
    obtain ⟨rfl, rfl⟩ | ⟨hash, rfl, saved⟩ := before
    · rfl
    · obtain ⟨stack, c, loaded, -, full, -⟩ := h.load deep saved
      simpa [loaded] using full
  simp only [saveState, full] at got
  split at got
  next hash found =>
    -- The room has this state already.
    cases got
    obtain ⟨known, eq⟩ := filter_eq_some_iff.mp found
    obtain rfl := of_decide_eq_true eq
    obtain ⟨state', saved, hashed⟩ := h.hashes _ _ known
    obtain ⟨stack, c, loaded, -, same, -⟩ := h.load deep saved
    obtain rfl : old = state := by
      rw [← full, ← apart _ saved hashed, ← same]
      simp [loaded]
    exact ⟨by simp, by simp⟩
  · split at got
    · cases got; exact isDelta_self old state
    · split at got
      · cases got
      · cases got; exact isDelta_self old state

theorem save_state_reports_change_layered : let states := run (step id 4) start [.save none created 1, .clearCache]
    ∃ answer, (states.service.saveState id 4 (some 1) joined 2).1 = some answer ∧
      IsDelta created joined answer.added answer.removed ∧ answer.added = {compressStateEvent 2 2} := by
  intro states
  have saved : (states.service.saveState id 4 (some 1) joined 2).1 = some ⟨2, {compressStateEvent 2 2}, ∅⟩ := by decide +kernel
  have before : (1, created) ∈ states.saved := by decide +kernel
  have reports := (save_state_reports_change (le_refl 4) layered_admits).2.2.1
  exact ⟨_, saved, reports (some 1) joined 2 _ created rfl saved (.inr ⟨1, rfl, before⟩), rfl⟩

end SavedStates

end Wbfuwunel.Rooms
