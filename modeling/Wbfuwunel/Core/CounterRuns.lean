import Mathlib.Data.List.Nodup
import Mathlib.Data.List.Range
import Wbfuwunel.Core.TwoPhaseCounter
import Wbfuwunel.Foundation.Runs

/-! The counter over every order in which its permits are dropped.

The pending numbers are those handed out and not dropped, in the order they were handed out. Everything else about the
counter follows from that.
-/

set_option autoImplicit false

namespace Wbfuwunel.Core

open Foundation List Counter

namespace Counter

variable {counter : Counter} {id : Nat}

theorem dispatch_eq (counter : Counter) (commit : Commit) :
    counter.dispatch commit = if counter.dispatched + 1 < 2 ^ 64 ∧ commit = .stored then
        (some (counter.retired, counter.dispatched + 1),
          ⟨counter.dispatched + 1, counter.pending ++ [counter.dispatched + 1]⟩)
      else (none, counter) := by
  unfold dispatch
  cases commit <;> simp

theorem retire_eq (sorted : counter.pending.Pairwise (· < ·)) (mem : id ∈ counter.pending) :
    counter.retire id = (⟨counter.dispatched, counter.pending.erase id⟩, if counter.pending.head? = some id then
        some (if (counter.pending.erase id).isEmpty then counter.dispatched else id)
      else none) := by
  have i : counter.pendingIndex id = some (counter.pending.idxOf id) :=
    (binarySearch_eq_some_iff sorted).mpr (getElem?_idxOf mem)
  have erased : counter.pending.eraseIdx (counter.pending.idxOf id) = counter.pending.erase id :=
    (erase_eq_eraseIdx_of_idxOf rfl).symm
  have a : counter.pending.idxOf id = 0 ↔ counter.pending.head? = some id := by
    obtain ⟨oldest, rest, split⟩ := exists_cons_of_ne_nil (ne_nil_of_mem mem)
    rw [split]
    by_cases eq : oldest = id
    · simp [eq]
    · simp [eq]
  simp only [retire, i, ne_eq, a]
  by_cases oldest : counter.pending.head? = some id <;> simp [oldest]

end Counter

namespace Globals

/-! ## What is pending -/

/-- The numbers from `init` on were handed out one after the other, and what is pending are those not dropped. -/
structure Tracks (init : Nat) (globals : Globals) : Prop where
  handed : globals.handed = List.range' (init + 1) (globals.counter.dispatched - init)
  above : init ≤ globals.counter.dispatched
  pending : globals.counter.pending = globals.handed.filter (· ∉ globals.dropped)
  dropped : ∀ id ∈ globals.dropped, id ∈ globals.handed

namespace Tracks

variable {init : Nat} {globals : Globals}

theorem new (init : Nat) : Tracks init (.new init) where
  handed := by simp [Globals.new, Counter.new]
  above := Nat.le_refl init
  pending := rfl
  dropped := by simp [Globals.new]

variable {id : Nat}

section

variable (tracks : Tracks init globals)
include tracks

theorem mem_handed : id ∈ globals.handed ↔ init < id ∧ id ≤ globals.counter.dispatched := by
  have above := tracks.above
  rw [tracks.handed, mem_range'_1]
  omega

theorem mem_pending : id ∈ globals.counter.pending ↔ id ∈ globals.handed ∧ id ∉ globals.dropped := by
  simp [tracks.pending]

theorem sorted : globals.counter.pending.Pairwise (· < ·) := by
  rw [tracks.pending, tracks.handed]
  exact List.Pairwise.filter _ pairwise_lt_range'

theorem nextCount (commit : Commit) : Tracks init (globals.nextCount commit) := by
  have above := tracks.above
  unfold Globals.nextCount
  rw [dispatch_eq]
  split_ifs with got
  · have fresh : globals.counter.dispatched + 1 ∉ globals.dropped := by
      intro mem
      have handed := tracks.mem_handed.mp (tracks.dropped _ mem)
      omega
    have grown : globals.counter.dispatched + 1 - init = globals.counter.dispatched - init + 1 := by omega
    have last : init + 1 + (globals.counter.dispatched - init) = globals.counter.dispatched + 1 := by omega
    refine ⟨?_, Nat.le_succ_of_le above, ?_, ?_⟩
    · simp only [grown, range'_1_concat, last, ← tracks.handed]
    · simp [tracks.pending, fresh]
    · exact fun id mem => mem_append_left _ (tracks.dropped id mem)
  · exact tracks

theorem retire_eq (held : id ∈ globals.handed ∧ id ∉ globals.dropped) :
    globals.counter.retire id = (⟨globals.counter.dispatched, globals.counter.pending.erase id⟩,
      if globals.counter.pending.head? = some id then
        some (if (globals.counter.pending.erase id).isEmpty then globals.counter.dispatched else id)
      else none) :=
  Counter.retire_eq tracks.sorted (tracks.mem_pending.mpr held)

theorem dropPermit (id : Nat) : Tracks init (globals.dropPermit id) := by
  unfold Globals.dropPermit
  split_ifs with held
  · have distinct : globals.counter.pending.Nodup := tracks.sorted.imp fun smaller => smaller.ne
    have taken : globals.counter.pending.erase id = globals.handed.filter (· ∉ id :: globals.dropped) := by
      rw [distinct.erase_eq_filter, tracks.pending, filter_filter]
      refine filter_congr fun o _ => ?_
      by_cases eq : o = id <;> simp [eq]
    have after : Tracks init { globals with
        counter := ⟨globals.counter.dispatched, globals.counter.pending.erase id⟩
        dropped := id :: globals.dropped } := by
      refine ⟨tracks.handed, tracks.above, taken, ?_⟩
      rintro o (_ | ⟨_, mem⟩)
      · exact held.1
      · exact tracks.dropped o mem
    rw [tracks.retire_eq held]
    split_ifs <;> exact ⟨after.handed, after.above, after.pending, after.dropped⟩
  · exact tracks

theorem step (e : Event) : Tracks init (globals.step e) := by
  cases e with
  | next commit => exact tracks.nextCount commit
  | drop id => exact tracks.dropPermit id

end

theorem run (init : Nat) (es : List Event) : Tracks init (run Globals.step (.new init) es) := by
  have always : Admits Globals.step (fun _ _ => True) (.new init) es := admits_of_forall fun _ _ _ => trivial
  exact (along_of_keeps (fun _ e tracks _ => tracks.step e) (Tracks.new init) always).last

end Tracks

/-! ## The frontier -/

/-- Everything up to `current` is retired, and the number after it is not. -/
structure Frontier (init : Nat) (globals : Globals) : Prop where
  reached : init ≤ globals.counter.current
  within : globals.counter.current ≤ globals.counter.dispatched
  behind : ∀ id, init < id → id ≤ globals.counter.current → id ∈ globals.dropped
  ahead : globals.counter.current < globals.counter.dispatched → globals.counter.current + 1 ∉ globals.dropped

variable {init : Nat} {globals : Globals}

theorem Tracks.frontier (tracks : Tracks init globals) : Frontier init globals := by
  have above := tracks.above
  have sorted := tracks.sorted
  -- a number that was handed out is pending or dropped
  have settled : ∀ id, init < id → id ≤ globals.counter.dispatched → id ∉ globals.counter.pending →
      id ∈ globals.dropped := by
    intro id large small gone
    by_contra held
    exact gone (tracks.mem_pending.mpr ⟨tracks.mem_handed.mpr ⟨large, small⟩, held⟩)
  cases pending : globals.counter.pending with
  | nil =>
    have current : globals.counter.current = globals.counter.dispatched := by
      simp [current, retired, pending]
    refine ⟨by omega, by omega, fun id large small => settled id large (by omega) (by simp [pending]), by omega⟩
  | cons oldest rest =>
    have current : globals.counter.current = oldest - 1 := by simp [current, retired, pending]
    obtain ⟨handed, held⟩ := tracks.mem_pending.mp (pending ▸ mem_cons_self : oldest ∈ globals.counter.pending)
    obtain ⟨large, small⟩ := tracks.mem_handed.mp handed
    refine ⟨by omega, by omega, ?_, ?_⟩
    · intro id after old
      refine settled id after (by omega) fun mem => ?_
      rw [pending] at mem sorted
      rcases mem_cons.mp mem with rfl | later
      · omega
      · have := (pairwise_cons.mp sorted).1 id later
        omega
    · intro _
      rwa [current, show oldest - 1 + 1 = oldest by omega]

theorem Frontier.le {next : Globals} (old : Frontier init globals) (after : Frontier init next)
    (dispatched : globals.counter.dispatched ≤ next.counter.dispatched)
    (dropped : ∀ id ∈ globals.dropped, id ∈ next.dropped) : globals.counter.current ≤ next.counter.current := by
  by_contra less
  have reached := after.reached
  have within := old.within
  exact after.ahead (by omega) (dropped _ (old.behind _ (by omega) (by omega)))

theorem nextCount_eq_of_not_stored (globals : Globals) {commit : Commit} (failed : commit ≠ .stored) :
    globals.nextCount commit = globals := by
  simp [nextCount, dispatch_eq, failed]

theorem dispatched_le_step (tracks : Tracks init globals) (e : Event) :
    globals.counter.dispatched ≤ (globals.step e).counter.dispatched ∧
      ∀ id ∈ globals.dropped, id ∈ (globals.step e).dropped := by
  cases e with
  | next commit =>
    simp only [step, nextCount, dispatch_eq]
    split_ifs
    · exact ⟨Nat.le_succ _, fun _ mem => mem⟩
    · exact ⟨Nat.le_refl _, fun _ mem => mem⟩
  | drop id =>
    simp only [step, dropPermit]
    split_ifs with held
    · rw [tracks.retire_eq held]
      split_ifs <;> exact ⟨Nat.le_refl _, fun _ mem => mem_cons_of_mem _ mem⟩
    · exact ⟨Nat.le_refl _, fun _ mem => mem⟩

/-- After every run of dispatches and retirements. -/
theorem counter_tracks (init : Nat) (events : List Event) : let globals := run step (.new init) events
    globals.handed = List.range' (init + 1) (globals.counter.dispatched - init) ∧
      globals.counter.pending.Pairwise (· < ·) ∧
      (∀ id, id ∈ globals.counter.pending ↔ id ∈ globals.handed ∧ id ∉ globals.dropped) ∧
      globals.counter.current ≤ globals.counter.dispatched ∧
      (∀ id, init < id → id ≤ globals.counter.current → id ∈ globals.dropped) ∧
      (globals.counter.current + 1 ≤ globals.counter.dispatched → globals.counter.current + 1 ∉ globals.dropped) ∧
      (∀ e, globals.counter.current ≤ (globals.step e).counter.current) ∧
      ∀ commit, commit ≠ .stored → globals.step (.next commit) = globals := by
  intro globals
  have tracks : Tracks init globals := .run init events
  have frontier := tracks.frontier
  refine ⟨tracks.handed, tracks.sorted, fun id => tracks.mem_pending, frontier.within, frontier.behind, frontier.ahead,
    fun e => ?_, fun commit failed => nextCount_eq_of_not_stored globals failed⟩
  obtain ⟨dispatched, dropped⟩ := dispatched_le_step tracks e
  exact frontier.le (tracks.step e).frontier dispatched dropped

/-! ## What is released -/

def Releases (globals : Globals) : Event → Prop
  | .drop id => (globals.dropPermit id).counter.current ≠ globals.counter.current →
      (globals.counter.retire id).2 = some (globals.dropPermit id).counter.current
  | .next _ => True

def Heard (globals : Globals) : Prop :=
  globals.retires = globals.counter.current ∧ ∀ count, count ≤ globals.counter.current → globals.waitCount count

/-- Where the oldest pending number is retired, the one after it is pending, or nothing else is. -/
def Adjacent (globals : Globals) : Event → Prop
  | .drop id => ∀ rest, globals.counter.pending = id :: rest → rest = [] ∨ id + 1 ∈ rest
  | .next _ => True

theorem heard_of_eq (eq : globals.retires = globals.counter.current) : globals.Heard := by
  refine ⟨eq, fun n reached => ?_⟩
  simp [waitCount, eq, reached]

namespace Tracks

variable {init : Nat} {globals : Globals} (tracks : Tracks init globals)

include tracks

variable {id : Nat}

/-- The oldest number goes: the frontier moves to the number before the next one that is pending. -/
theorem dropPermit_oldest {rest : List Nat} (pending : globals.counter.pending = id :: rest) :
    globals.dropPermit id = { globals with
      counter := ⟨globals.counter.dispatched, rest⟩
      retires := if rest.isEmpty then globals.counter.dispatched else id
      dropped := id :: globals.dropped } := by
  have held := tracks.mem_pending.mp (pending ▸ mem_cons_self : id ∈ globals.counter.pending)
  simp [Globals.dropPermit, held, tracks.retire_eq held, pending, handleRetire]

theorem dropPermit_later (later : globals.counter.pending.head? ≠ some id) :
    (globals.dropPermit id).counter.current = globals.counter.current ∧
      (globals.dropPermit id).retires = globals.retires := by
  unfold Globals.dropPermit
  split_ifs with held
  · rw [tracks.retire_eq held, if_neg later]
    refine ⟨?_, rfl⟩
    obtain ⟨oldest, rest, pending⟩ := exists_cons_of_ne_nil (ne_nil_of_mem (tracks.mem_pending.mpr held))
    have o : oldest ≠ id := by simpa [pending] using later
    simp [current, retired, pending, o]
  · exact ⟨rfl, rfl⟩

/-- The value released is the new frontier just when no number was retired ahead of the oldest one's. -/
theorem released_eq_iff {rest : List Nat} (pending : globals.counter.pending = id :: rest) :
    (if rest.isEmpty then globals.counter.dispatched else id) = (⟨globals.counter.dispatched, rest⟩ : Counter).current ↔
      rest = [] ∨ id + 1 ∈ rest := by
  have sorted := tracks.sorted
  rw [pending, pairwise_cons] at sorted
  cases rest with
  | nil => simp [current, retired]
  | cons next rest =>
    have after : id < next := sorted.1 next mem_cons_self
    have least := (pairwise_cons.mp sorted.2).1
    simp only [current, retired, isEmpty_cons, Bool.false_eq_true, if_false, cons_ne_nil, false_or, mem_cons]
    constructor
    · omega
    · rintro (eq | mem)
      · omega
      · have := least _ mem
        omega

theorem releases_iff (e : Event) : globals.Releases e ↔ globals.Adjacent e := by
  cases e with
  | next commit => exact Iff.rfl
  | drop id =>
    by_cases oldest : globals.counter.pending.head? = some id
    · obtain ⟨rest, pending⟩ := head?_eq_some_iff.mp oldest
      have held := tracks.mem_pending.mp (pending ▸ mem_cons_self : id ∈ globals.counter.pending)
      have moves : (⟨globals.counter.dispatched, rest⟩ : Counter).current ≠ globals.counter.current := by
        obtain ⟨large, small⟩ := tracks.mem_handed.mp held.1
        have old : globals.counter.current = id - 1 := by simp [current, retired, pending]
        have ahead := (tracks.dropPermit id).frontier.ahead
        rw [tracks.dropPermit_oldest pending] at ahead
        intro eq
        rw [old] at eq
        refine ahead (by simp only [eq]; omega) ?_
        simp only [eq, show id - 1 + 1 = id by omega, mem_cons_self]
      have released : (globals.counter.retire id).2 = some (if rest.isEmpty then globals.counter.dispatched else id) := by
        simp [tracks.retire_eq held, pending]
      have only : globals.Adjacent (.drop id) ↔ rest = [] ∨ id + 1 ∈ rest := by
        simp [Globals.Adjacent, pending]
      rw [only, ← tracks.released_eq_iff pending]
      simp only [Globals.Releases, tracks.dropPermit_oldest pending, released, Option.some.injEq]
      exact ⟨fun told => told moves, fun eq _ => eq⟩
    · constructor
      · rintro - rest pending
        simp [pending] at oldest
      · intro _ moved
        exact absurd (tracks.dropPermit_later oldest).1 moved

theorem heard_step {e : Event} (heard : globals.retires = globals.counter.current)
    (adjacent : globals.Adjacent e) : (globals.step e).retires = (globals.step e).counter.current := by
  cases e with
  | next commit =>
    simp only [Globals.step, Globals.nextCount, dispatch_eq]
    split_ifs
    · -- a new number is pending behind the others, or alone just above the frontier
      rw [heard]
      cases pending : globals.counter.pending <;> simp [current, retired, pending]
    · exact heard
  | drop id =>
    by_cases oldest : globals.counter.pending.head? = some id
    · obtain ⟨rest, pending⟩ := head?_eq_some_iff.mp oldest
      have told := (tracks.released_eq_iff pending).mpr (adjacent rest pending)
      simpa only [Globals.step, tracks.dropPermit_oldest pending] using told
    · obtain ⟨current, retires⟩ := tracks.dropPermit_later oldest
      simp only [Globals.step, current, retires, heard]

end Tracks

/-- Over every run, each retirement that moves the frontier releases its new value, and whoever waits hears of it, just
when the oldest pending number is only ever retired with the next one pending or none at all. -/
theorem counter_releases_iff (init : Nat) (events : List Event) :
    Admits step Releases (.new init) events ∧ Along step Heard (.new init) events ↔
      Admits step Adjacent (.new init) events := by
  constructor
  · rintro ⟨releases, -⟩
    exact releases.imp_of_keeps (fun _ e tracks _ => Tracks.step tracks e)
      (fun _ e tracks => (Tracks.releases_iff tracks e).mp) (Tracks.new init)
  · intro adjacent
    refine ⟨adjacent.imp_of_keeps (fun _ e tracks _ => Tracks.step tracks e)
      (fun _ e tracks => (Tracks.releases_iff tracks e).mpr) (Tracks.new init), ?_⟩
    have keeps (globals : Globals) (e : Event)
        (h : Tracks init globals ∧ globals.retires = globals.counter.current) (adjacent : globals.Adjacent e) :
        Tracks init (globals.step e) ∧ (globals.step e).retires = (globals.step e).counter.current :=
      ⟨h.1.step e, h.1.heard_step h.2 adjacent⟩
    exact (along_of_keeps keeps ⟨Tracks.new init, rfl⟩ adjacent).imp fun globals h => heard_of_eq h.2

/-- Numbers 1, 2 and 3; 2 is retired before 1. Then 2 is readable and 1 is released. -/
theorem second_before_first : let globals := run step (.new 0) [.next .stored, .next .stored, .next .stored, .drop 2]
    (globals.dropPermit 1).counter.current = 2 ∧ globals.counter.current = 0 ∧
      (globals.counter.retire 1).2 = some 1 ∧ (globals.dropPermit 1).waitCount 2 = false := by
  decide

end Globals

end Wbfuwunel.Core
