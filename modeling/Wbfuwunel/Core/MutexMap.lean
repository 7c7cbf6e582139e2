import Mathlib.Algebra.GroupWithZero.Nat
import Mathlib.Algebra.Order.BigOperators.Group.List
import Wbfuwunel.Foundation.Runs

/-! A mutex for each key, created on demand and removed by the last contender. From `core/utils/mutex_map.rs`.

Every contender is a guard from the moment it has the entry. A step is what happens under the map's lock, or one clone,
drop or change of the mutex outside of it.
-/

set_option autoImplicit false

namespace Wbfuwunel.Core
open Foundation List Function

namespace MutexMap

abbrev Instance := Nat

inductive Phase where
  /-- The guard has its entry. -/
  | pending
  /-- A clone of the entry is in flight: the mutex is being tried or waited for. -/
  | claiming
  /-- The guard has been returned and owns the mutex. -/
  | held
  /-- The guard is being dropped: the mutex is free of it, the entry not yet. -/
  | released
  deriving DecidableEq, Repr

/-- The references a guard holds: its entry, and the clone in flight or in the owned lock. -/
def Phase.references : Phase → Nat
  | .pending | .released => 1
  | .claiming | .held => 2

theorem Phase.references_pos (phase : Phase) : 0 < phase.references := by cases phase <;> decide

structure Guard (Key : Type) where
  key : Key
  entry : Instance
  phase : Phase
  deriving DecidableEq

structure State (Key : Type) where
  map : Key → Option Instance
  strongCount : Instance → Nat
  isLocked : Instance → Bool
  /-- The next mutex to be allocated. -/
  next : Instance
  guards : List (Guard Key)

namespace State

variable {Key : Type}

def new : State Key := ⟨fun _ => none, fun _ => 0, fun _ => false, 0, []⟩

def references (guards : List (Guard Key)) (mutex : Instance) : Nat :=
  (guards.map fun guard => if guard.entry = mutex then guard.phase.references else 0).sum

def holders (guards : List (Guard Key)) (mutex : Instance) : Nat :=
  guards.countP fun guard => guard.entry = mutex ∧ guard.phase = .held

variable (state : State Key)

def clone (mutex : Instance) : State Key :=
  { state with strongCount := update state.strongCount mutex (state.strongCount mutex + 1) }

def dropReference (mutex : Instance) : State Key :=
  { state with strongCount := update state.strongCount mutex (state.strongCount mutex - 1) }

/-- `map.retain(|_, val| Arc::strong_count(val) > 1)` -/
def retain : State Key :=
  { state with map := fun key => (state.map key).filter fun mutex => 1 < state.strongCount mutex }

theorem map_retain {state : State Key} {k : Key} {mutex : Instance} :
    state.retain.map k = some mutex ↔ state.map k = some mutex ∧ 1 < state.strongCount mutex := by
  simp [retain]

variable [DecidableEq Key] (guard : Guard Key)

def become (phase : Phase) : State Key :=
  { state with guards := { guard with phase } :: state.guards.erase guard }

/-- `entry(k).or_default()`; the map holds the first reference to a new mutex. -/
def orDefault (key : Key) : State Key × Instance :=
  match state.map key with
  | some mutex => (state, mutex)
  | none =>
    ({ state with
        map := update state.map key (some state.next)
        strongCount := update state.strongCount state.next 1
        isLocked := update state.isLocked state.next false
        next := state.next + 1 }, state.next)

def entry (key : Key) : State Key :=
  let found := state.orDefault key
  let cloned := found.1.clone found.2
  { cloned with guards := ⟨key, found.2, .pending⟩ :: cloned.guards }

def claim : State Key := (state.clone guard.entry).become guard .claiming

/-- `lock_owned` or `try_lock_owned` succeeds: the clone becomes the owned lock's. -/
def acquire : State Key :=
  { state with isLocked := update state.isLocked guard.entry true }.become guard .held

/-- `try_lock_owned` fails, or the wait for `lock_owned` is cancelled: the clone goes before the guard does. -/
def giveUp : State Key :=
  (state.dropReference guard.entry).become guard .released

def unlock : State Key :=
  { state with isLocked := update state.isLocked guard.entry false }.giveUp guard

def takeEntry : State Key :=
  { state with
    strongCount := update state.strongCount guard.entry (state.strongCount guard.entry - 1)
    guards := state.guards.erase guard }

/-- The rest of `drop`, under the map's lock. The count is read while the entry still counts. -/
def release : State Key :=
  if state.strongCount guard.entry ≤ 2 then (state.takeEntry guard).retain else state.takeEntry guard

@[simp] theorem release_guards : (state.release guard).guards = state.guards.erase guard := by
  unfold release
  split <;> rfl

@[simp] theorem release_isLocked : (state.release guard).isLocked = state.isLocked := by
  unfold release
  split <;> rfl

@[simp] theorem release_next : (state.release guard).next = state.next := by
  unfold release
  split <;> rfl

@[simp] theorem release_strongCount : (state.release guard).strongCount =
      update state.strongCount guard.entry (state.strongCount guard.entry - 1) := by
  unfold release
  split <;> rfl

end State

inductive Event (Key : Type) where
  | entry (key : Key)
  | claim (guard : Guard Key)
  | acquire (guard : Guard Key)
  | giveUp (guard : Guard Key)
  | unlock (guard : Guard Key)
  | release (guard : Guard Key)

namespace State

section Accounts

variable {Key : Type}

@[simp] theorem references_cons (guard : Guard Key) (guards : List (Guard Key)) (mutex : Instance) :
    references (guard :: guards) mutex =
      (if guard.entry = mutex then guard.phase.references else 0) + references guards mutex := rfl

@[simp] theorem holders_cons (guard : Guard Key) (guards : List (Guard Key)) (mutex : Instance) :
    holders (guard :: guards) mutex =
      (if guard.entry = mutex ∧ guard.phase = .held then 1 else 0) + holders guards mutex := by
  simp [holders, countP_cons, Nat.add_comm]

theorem references_eq_zero {guards : List (Guard Key)} {mutex : Instance}
    (none : ∀ guard ∈ guards, guard.entry ≠ mutex) : references guards mutex = 0 := by
  refine sum_eq_zero fun n mem => ?_
  obtain ⟨guard, member, rfl⟩ := mem_map.mp mem
  simp [none guard member]

theorem holders_eq_zero {guards : List (Guard Key)} {mutex : Instance}
    (none : ∀ guard ∈ guards, guard.entry ≠ mutex) : holders guards mutex = 0 := by
  refine countP_eq_zero.mpr fun guard mem => ?_
  simp [none guard mem]

/-- What the map and the counters say of the guards. -/
structure Sound (state : State Key) : Prop where
  /-- A mutex in use is never replaced. -/
  current : ∀ guard ∈ state.guards, state.map guard.key = some guard.entry
  used : ∀ key mutex, state.map key = some mutex → ∃ guard ∈ state.guards, guard.key = key
  apart : ∀ key other mutex, state.map key = some mutex → state.map other = some mutex → key = other
  allocated : ∀ key mutex, state.map key = some mutex → mutex < state.next
  counted : ∀ key mutex, state.map key = some mutex → state.strongCount mutex = 1 + references state.guards mutex
  exclusive : ∀ mutex, holders state.guards mutex = (state.isLocked mutex).toNat

theorem sound_new : (new : State Key).Sound where
  current guard mem := by cases mem
  used k mutex hit := by cases hit
  apart k o mutex hit := by cases hit
  allocated k mutex hit := by cases hit
  counted k mutex hit := by cases hit
  exclusive mutex := rfl

theorem Sound.entry_lt_next {s : State Key} (h : s.Sound) {guard : Guard Key}
    (mem : guard ∈ s.guards) : guard.entry < s.next :=
  h.allocated guard.key guard.entry (h.current guard mem)

theorem Sound.tracked {s : State Key} (h : s.Sound) (k : Key) : (s.map k).isSome ↔ ∃ guard ∈ s.guards, guard.key = k := by
  constructor
  · intro hit
    obtain ⟨mutex, stored⟩ := Option.isSome_iff_exists.mp hit
    exact h.used k mutex stored
  · rintro ⟨guard, mem, rfl⟩
    exact Option.isSome_iff_exists.mpr ⟨guard.entry, h.current guard mem⟩

end Accounts

variable {Key : Type} [DecidableEq Key]

/-- What a guard does depends on where it stands; the mutex itself lets one owner in at a time. -/
def step (state : State Key) : Event Key → State Key
  | .entry key => state.entry key
  | .claim guard => if guard ∈ state.guards ∧ guard.phase = .pending then state.claim guard else state
  | .acquire guard =>
    if guard ∈ state.guards ∧ guard.phase = .claiming ∧ state.isLocked guard.entry = false then state.acquire guard
    else state
  | .giveUp guard => if guard ∈ state.guards ∧ guard.phase = .claiming then state.giveUp guard else state
  | .unlock guard => if guard ∈ state.guards ∧ guard.phase = .held then state.unlock guard else state
  | .release guard => if guard ∈ state.guards ∧ guard.phase = .released then state.release guard else state

/-! ## What a step keeps -/

variable {guards : List (Guard Key)} {guard : Guard Key} {state : State Key}

theorem references_pos (mem : guard ∈ guards) : 0 < references guards guard.entry := by
  have part := sum_map_erase (fun guard' : Guard Key => if guard'.entry = guard.entry then guard'.phase.references else 0)
    mem
  have own := guard.phase.references_pos
  simp only [if_true] at part
  unfold references
  omega

theorem references_erase (mem : guard ∈ guards) (mutex : Instance) :
    (if guard.entry = mutex then guard.phase.references else 0) + references (guards.erase guard) mutex =
      references guards mutex :=
  sum_map_erase (fun guard' : Guard Key => if guard'.entry = mutex then guard'.phase.references else 0) mem

theorem holders_erase (mem : guard ∈ guards) (mutex : Instance) :
    (if guard.entry = mutex ∧ guard.phase = .held then 1 else 0) + holders (guards.erase guard) mutex =
      holders guards mutex := by
  rw [← holders_cons]
  exact (perm_cons_erase mem).countP_eq _ |>.symm

section

variable (h : state.Sound)
include h

section

variable (mem : guard ∈ state.guards)
include mem

theorem Sound.become {phase : Phase} {strongCount : Instance → Nat} {isLocked : Instance → Bool}
    (counts : strongCount guard.entry + guard.phase.references = state.strongCount guard.entry + phase.references)
    (others : ∀ mutex, mutex ≠ guard.entry → strongCount mutex = state.strongCount mutex)
    (lock : (isLocked guard.entry).toNat + (if guard.phase = .held then 1 else 0) =
      (state.isLocked guard.entry).toNat + (if phase = .held then 1 else 0))
    (otherLocks : ∀ mutex, mutex ≠ guard.entry → isLocked mutex = state.isLocked mutex) :
    ({ state with strongCount, isLocked }.become guard phase).Sound where
  current guard' member := by
    rcases mem_cons.mp member with rfl | rest
    · exact h.current guard mem
    · exact h.current guard' (mem_of_mem_erase rest)
  used k mutex hit := by
    obtain ⟨guard', member, same⟩ := h.used k mutex hit
    by_cases moved : guard' = guard
    · exact ⟨{ guard with phase }, mem_cons_self, moved ▸ same⟩
    · exact ⟨guard', mem_cons_of_mem _ ((mem_erase_of_ne moved).mpr member), same⟩
  apart := h.apart
  allocated := h.allocated
  counted k mutex hit := by
    have old := h.counted k mutex hit
    have erased := references_erase mem mutex
    by_cases here : guard.entry = mutex
    · subst here
      simp only [State.become, references_cons, if_true] at erased ⊢
      omega
    · simp only [State.become, references_cons, here, if_false] at erased ⊢
      rw [others mutex (Ne.symm here)]
      omega
  exclusive mutex := by
    have old := h.exclusive mutex
    have erased := holders_erase mem mutex
    by_cases here : guard.entry = mutex
    · subst here
      simp only [State.become, holders_cons, true_and] at erased ⊢
      omega
    · simp only [State.become, holders_cons, here, false_and, if_false] at erased ⊢
      rw [otherLocks mutex (Ne.symm here)]
      omega

theorem Sound.claim (pending : guard.phase = .pending) : (state.claim guard).Sound := by
  refine h.become mem ?_ ?_ ?_ ?_
  · simp [pending, Phase.references]
  · intro mutex o
    simp [o]
  · simp [pending]
  · intro mutex o
    rfl

theorem Sound.acquire (claiming : guard.phase = .claiming) (free : state.isLocked guard.entry = false) :
    (state.acquire guard).Sound := by
  refine h.become mem ?_ ?_ ?_ ?_
  · simp [claiming, Phase.references]
  · intro mutex o
    rfl
  · simp [claiming, free]
  · intro mutex o
    simp [o]

theorem Sound.two_le_strongCount : 2 ≤ state.strongCount guard.entry := by
  have n := h.counted guard.key guard.entry (h.current guard mem)
  have own := references_pos mem
  omega

theorem Sound.giveUp (claiming : guard.phase = .claiming) : (state.giveUp guard).Sound := by
  have enough := h.two_le_strongCount mem
  refine h.become mem ?_ ?_ ?_ ?_
  · simp only [claiming, Phase.references, update_self]
    omega
  · intro mutex o
    simp [o]
  · simp [claiming]
  · intro mutex o
    rfl

theorem Sound.unlock (held : guard.phase = .held) : (state.unlock guard).Sound := by
  have enough := h.two_le_strongCount mem
  -- The lock is the guard's own.
  have locked : state.isLocked guard.entry := by
    have one := h.exclusive guard.entry
    have erased := holders_erase mem guard.entry
    simp only [held, and_self, if_true] at erased
    cases locked : state.isLocked guard.entry with
    | true => rfl
    | false =>
      rw [locked, Bool.toNat_false] at one
      omega
  refine h.become mem ?_ ?_ ?_ ?_
  · simp only [held, Phase.references, update_self]
    omega
  · intro mutex o
    simp [o]
  · simp [held, locked]
  · intro mutex o
    simp [o]

omit mem in
theorem Sound.entry_fresh {k : Key} (absent : state.map k = none) : (state.entry k).Sound := by
  have unknown : ∀ guard ∈ state.guards, guard.entry ≠ state.next := fun guard mem =>
    Nat.ne_of_lt (h.entry_lt_next mem)
  have old : ∀ other mutex, update state.map k (some state.next) other = some mutex →
      other = k ∧ mutex = state.next ∨ other ≠ k ∧ state.map other = some mutex ∧ mutex ≠ state.next := by
    intro other mutex hit
    by_cases same : other = k
    · exact .inl ⟨same, by simpa [same] using hit.symm⟩
    · have got : state.map other = some mutex := by simpa [same] using hit
      exact .inr ⟨same, got, Nat.ne_of_lt (h.allocated other mutex got)⟩
  have made : state.entry k =
      { map := update state.map k (some state.next)
        strongCount := update state.strongCount state.next 2
        isLocked := update state.isLocked state.next false
        next := state.next + 1
        guards := ⟨k, state.next, .pending⟩ :: state.guards } := by
    simp [State.entry, orDefault, absent, clone]
  rw [made]
  constructor
  · intro guard member
    rcases mem_cons.mp member with rfl | before
    · simp
    · have got := h.current guard before
      have other : guard.key ≠ k := fun same => by simp [same, absent] at got
      simpa [other] using got
  · intro other mutex hit
    rcases old other mutex hit with ⟨rfl, rfl⟩ | ⟨-, got, -⟩
    · exact ⟨_, mem_cons_self, rfl⟩
    · obtain ⟨guard, mem, same⟩ := h.used other mutex got
      exact ⟨guard, mem_cons_of_mem _ mem, same⟩
  · intro a b mutex here there
    rcases old a mutex here with ⟨rfl, rfl⟩ | ⟨-, got, apart⟩
    · rcases old b _ there with ⟨rfl, -⟩ | ⟨-, -, apart⟩
      · rfl
      · exact absurd rfl apart
    · rcases old b mutex there with ⟨-, rfl⟩ | ⟨-, got', -⟩
      · exact absurd rfl apart
      · exact h.apart a b mutex got got'
  · intro other mutex hit
    rcases old other mutex hit with ⟨-, rfl⟩ | ⟨-, got, -⟩
    · exact Nat.lt_succ_self _
    · exact Nat.lt_succ_of_lt (h.allocated other mutex got)
  · intro other mutex hit
    rcases old other mutex hit with ⟨-, rfl⟩ | ⟨-, got, apart⟩
    · simp [Phase.references, references_eq_zero unknown]
    · simpa [apart, Ne.symm apart] using h.counted other mutex got
  · intro mutex
    by_cases same : mutex = state.next
    · subst same
      simp [holders_eq_zero unknown]
    · simpa [same] using h.exclusive mutex

omit mem in
theorem Sound.entry (k : Key) : (state.entry k).Sound := by
  cases hit : state.map k with
  | none => exact h.entry_fresh hit
  | some mutex =>
    have made : state.entry k = { state with
          strongCount := update state.strongCount mutex (state.strongCount mutex + 1)
          guards := ⟨k, mutex, .pending⟩ :: state.guards } := by
      simp [State.entry, orDefault, hit, clone]
    rw [made]
    refine ⟨?_, ?_, h.apart, h.allocated, ?_, ?_⟩
    · intro guard member
      rcases mem_cons.mp member with rfl | old
      · exact hit
      · exact h.current guard old
    · intro o got stored
      obtain ⟨guard, mem, same⟩ := h.used o got stored
      exact ⟨guard, mem_cons_of_mem _ mem, same⟩
    · intro o got stored
      have old := h.counted o got stored
      by_cases same : got = mutex
      · subst same
        simp only [update_self, references_cons, if_true, Phase.references]
        omega
      · simpa [same, Ne.symm same] using old
    · intro got
      simpa using h.exclusive got

variable (released : guard.phase = .released)
include released

/-- `drop` finds itself the last contender just if it is. -/
theorem Sound.strongCount_le_two_iff :
    state.strongCount guard.entry ≤ 2 ↔ references (state.guards.erase guard) guard.entry = 0 := by
  have n := h.counted guard.key guard.entry (h.current guard mem)
  have erased := references_erase mem guard.entry
  simp only [released, Phase.references, if_true] at erased
  omega

/-- `retain` keeps the entries of the guards that remain, and those only. -/
theorem Sound.map_release (k : Key) (mutex : Instance) : (state.release guard).map k = some mutex ↔
      state.map k = some mutex ∧ ∃ guard' ∈ state.guards.erase guard, guard'.key = k := by
  have last := h.strongCount_le_two_iff mem released
  have current := h.current guard mem
  have kept : ∀ o, state.map o = some mutex → o ≠ guard.key →
      mutex ≠ guard.entry ∧ 1 < state.strongCount mutex ∧ ∃ guard' ∈ state.guards.erase guard, guard'.key = o := by
    intro o got apart
    obtain ⟨guard', member, rfl⟩ := h.used o mutex got
    have x : guard'.entry = mutex := Option.some.inj ((h.current guard' member).symm.trans got)
    refine ⟨fun eq => apart (h.apart _ _ mutex got (eq ▸ current)), ?_, guard', ?_, rfl⟩
    · exact x ▸ h.two_le_strongCount member
    · exact (mem_erase_of_ne fun eq => apart (congrArg Guard.key eq)).mpr member
  by_cases only : state.strongCount guard.entry ≤ 2
  · have nobody : ∀ guard' ∈ state.guards.erase guard, guard'.key ≠ guard.key := by
      intro guard' member eq
      have got := h.current guard' (mem_of_mem_erase member)
      have x : guard'.entry = guard.entry := Option.some.inj (got.symm.trans (eq ▸ current))
      exact absurd (last.mp only) (Nat.ne_of_gt (x ▸ references_pos member))
    rw [State.release, if_pos only, map_retain]
    simp only [takeEntry]
    by_cases here : k = guard.key
    · subst here
      refine iff_of_false ?_ fun ⟨_, guard', member, eq⟩ => nobody guard' member eq
      rintro ⟨got, several⟩
      obtain rfl : guard.entry = mutex := Option.some.inj (current.symm.trans got)
      rw [update_self] at several
      omega
    · refine and_congr_right fun got => ?_
      obtain ⟨apart, several, someone⟩ := kept k got here
      simpa [apart, several] using someone
  · simp only [State.release, only]
    refine (and_iff_left_of_imp fun got => ?_).symm
    by_cases here : k = guard.key
    · subst here
      -- Another guard holds a reference to the same mutex.
      by_contra! nobody
      refine only (last.mpr (references_eq_zero fun guard' member eq => nobody guard' member ?_))
      exact h.apart _ _ guard.entry (eq ▸ h.current guard' (mem_of_mem_erase member)) current
    · exact (kept k got here).2.2

theorem Sound.release : (state.release guard).Sound := by
  have got := h.map_release mem released
  constructor
  · intro guard' member
    rw [release_guards] at member
    exact (got _ _).mpr ⟨h.current guard' (mem_of_mem_erase member), guard', member, rfl⟩
  · intro k mutex hit
    rw [release_guards]
    exact ((got k mutex).mp hit).2
  · intro a b mutex here there
    exact h.apart a b mutex ((got _ _).mp here).1 ((got _ _).mp there).1
  · intro k mutex hit
    rw [release_next]
    exact h.allocated k mutex ((got _ _).mp hit).1
  · intro k mutex hit
    have old := h.counted k mutex ((got _ _).mp hit).1
    have erased := references_erase mem mutex
    rw [release_guards, release_strongCount]
    by_cases here : guard.entry = mutex
    · subst here
      simp only [released, Phase.references, if_true, update_self] at erased ⊢
      omega
    · simp only [here, if_false] at erased
      rw [update_of_ne (Ne.symm here)]
      omega
  · intro mutex
    have erased := holders_erase mem mutex
    rw [release_guards, release_isLocked, ← h.exclusive mutex]
    simp only [released, reduceCtorEq, and_false, if_false] at erased
    omega

end

theorem Sound.step (event : Event Key) : (state.step event).Sound := by
  cases event <;> simp only [State.step]
  case entry k => exact h.entry k
  case claim guard =>
    split
    next enabled =>
      exact h.claim enabled.1 enabled.2
    · exact h
  case acquire guard =>
    split
    next enabled =>
      exact h.acquire enabled.1 enabled.2.1 enabled.2.2
    · exact h
  case giveUp guard =>
    split
    next enabled =>
      exact h.giveUp enabled.1 enabled.2
    · exact h
  case unlock guard =>
    split
    next enabled =>
      exact h.unlock enabled.1 enabled.2
    · exact h
  case release guard =>
    split
    next enabled =>
      exact h.release enabled.1 enabled.2
    · exact h

/-! ## Whole runs -/

omit h in
theorem sound_run (es : List (Event Key)) : Along step Sound (new : State Key) es := by
  have always : Admits step (fun _ _ => True) (new : State Key) es := admits_of_forall fun _ _ _ => trivial
  exact along_of_keeps (fun _ e h _ => h.step e) sound_new always

def alive (state : State Key) (key : Key) : Nat :=
  state.guards.countP fun guard => guard.key = key ∧ guard.phase = .held

theorem Sound.alive_le_one (k : Key) : state.alive k ≤ 1 := by
  cases hit : state.map k with
  | none =>
    have nobody : state.alive k = 0 := by
      refine countP_eq_zero.mpr fun guard mem => ?_
      have got := h.current guard mem
      have o : guard.key ≠ k := fun eq => by simp [eq, hit] at got
      simp [o]
    omega
  | some mutex =>
    -- They all have the mutex the map has now, and that lets one in.
    have ok : state.alive k = holders state.guards mutex := by
      refine countP_congr fun guard mem => ?_
      have got := h.current guard mem
      have eq : guard.key = k ↔ guard.entry = mutex := by
        constructor
        · rintro rfl
          exact Option.some.inj (got.symm.trans hit)
        · rintro rfl
          exact h.apart _ _ _ got hit
      simp [eq]
    have one := Bool.toNat_le (state.isLocked mutex)
    rw [ok, h.exclusive]
    exact one

structure Excludes (state : State Key) : Prop where
  /-- At most one guard of a key is alive. -/
  alive : ∀ key, state.alive key ≤ 1
  /-- There is an entry exactly while someone holds or contends for it. -/
  tracked : ∀ key, (state.map key).isSome ↔ ∃ guard ∈ state.guards, guard.key = key
  /-- An entry in use is never replaced. -/
  current : ∀ guard ∈ state.guards, state.map guard.key = some guard.entry
  /-- Nothing else refers to a mutex. -/
  counted : ∀ key mutex, state.map key = some mutex → state.strongCount mutex = 1 + references state.guards mutex
  /-- A failed or cancelled attempt takes back what it claimed, and nothing more. -/
  forgets : ∀ guard ∈ state.guards, guard.phase = .claiming →
    let after := run step state [.giveUp guard, .release { guard with phase := .released }]
    after.guards = state.guards.erase guard ∧ after.isLocked = state.isLocked ∧ after.Sound

theorem Sound.forgets (mem : guard ∈ state.guards) (claiming : guard.phase = .claiming) :
    let after := run State.step state [.giveUp guard, .release { guard with phase := .released }]
    after.guards = state.guards.erase guard ∧ after.isLocked = state.isLocked ∧ after.Sound := by
  have left : state.step (.giveUp guard) = state.giveUp guard := by simp [State.step, mem, claiming]
  have released : ({ guard with phase := .released } : Guard Key) ∈ (state.giveUp guard).guards := mem_cons_self
  simp only [run_cons, run_nil, left]
  refine ⟨?_, ?_, (left ▸ h.step (.giveUp guard)).step _⟩
  · rw [State.step, if_pos ⟨released, rfl⟩, release_guards]
    exact erase_cons_head _ (state.guards.erase guard)
  · rw [State.step, if_pos ⟨released, rfl⟩, release_isLocked]
    rfl

theorem Sound.excludes : state.Excludes := { h with
  alive := h.alive_le_one
  tracked := h.tracked
  forgets _ mem claiming := h.forgets mem claiming }

end

/-- In every state of every run, whatever locks, attempts, cancellations and drops it mixes. -/
theorem mutexMap_excludes (events : List (Event Key)) : Along step Excludes (new : State Key) events :=
  (sound_run events).imp fun _ h => h.excludes

/-- Two contenders for one key share one mutex, and the first has it. -/
example :
    let state := run step (new : State Nat) [.entry 5, .claim ⟨5, 0, .pending⟩, .acquire ⟨5, 0, .claiming⟩, .entry 5,
      .claim ⟨5, 0, .pending⟩, .acquire ⟨5, 0, .claiming⟩]
    state.guards = [⟨5, 0, .claiming⟩, ⟨5, 0, .held⟩] ∧ state.strongCount 0 = 5 := by
  decide

end State

end MutexMap

end Wbfuwunel.Core
