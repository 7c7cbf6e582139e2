import Mathlib.Data.List.Perm.Basic
import Mathlib.Order.Lattice

/-! Merging several descending streams by a heap of their heads.

A stream is a list that may have bad rows in it, which are skipped. The heap is a list of which a greatest entry is
taken: which one among equals, or how it is found, is left to the heap.
-/

set_option autoImplicit false

namespace Wbfuwunel.Foundation

open List Option

variable {ε κ α R : Type}

def nextItem : List (Except ε α) → Option (α × List (Except ε α))
  | [] => none
  | .ok item :: rest => some (item, rest)
  | .error _ :: rest => nextItem rest

def goodItems (stream : List (Except ε α)) : List α := stream.filterMap Except.toOption

variable {stream : List (Except ε α)}

theorem nextItem_eq_none : nextItem stream = none ↔ goodItems stream = [] := by
  induction stream with
  | nil => simp [nextItem, goodItems]
  | cons row rest ih =>
    cases row with
    | ok item => simp [nextItem, goodItems, Except.toOption]
    | error _ => simpa [nextItem, goodItems, Except.toOption] using ih

theorem goodItems_of_nextItem {rest : List (Except ε α)} {item : α} (next : nextItem stream = some (item, rest)) :
    goodItems stream = item :: goodItems rest := by
  induction stream with
  | nil => cases next
  | cons row tail ih =>
    cases row with
    | ok a =>
      cases next
      simp [goodItems, Except.toOption]
    | error _ => exact (filterMap_cons_none rfl).trans (ih next)

/-! ## The heap -/

structure Head (κ : Type) where
  key : κ
  stream : Nat
  deriving DecidableEq

section Heap

variable [LinearOrder R] (rank : κ → R)

def popMax : List (Head κ) → Option (Head κ × List (Head κ))
  | [] => none
  | head :: rest =>
    match popMax rest with
    | none => some (head, [])
    | some (best, others) => if rank best.key ≤ rank head.key then some (head, rest) else some (best, head :: others)

variable {heap : List (Head κ)}

theorem popMax_eq_none : popMax rank heap = none ↔ heap = [] := by
  cases heap with
  | nil => simp [popMax]
  | cons head rest =>
    simp only [popMax]
    split
    · simp
    · split <;> simp

theorem popMax_spec {best : Head κ} {others : List (Head κ)} (popped : popMax rank heap = some (best, others)) :
    heap.Perm (best :: others) ∧ ∀ o ∈ others, rank o.key ≤ rank best.key := by
  induction heap generalizing best others with
  | nil => cases popped
  | cons head rest ih =>
    rw [popMax] at popped
    split at popped
    case h_1 empty =>
      cases popped
      rw [popMax_eq_none] at empty
      exact ⟨by rw [empty], by simp⟩
    case h_2 a others' got =>
      obtain ⟨perm, greatest⟩ := ih got
      split at popped
      case isTrue lt =>
        cases popped
        refine ⟨.refl _, fun o among => ?_⟩
        rcases mem_cons.mp (perm.mem_iff.mp among) with rfl | among
        · exact lt
        · exact (greatest o among).trans lt
      case isFalse gt =>
        cases popped
        refine ⟨(perm.cons head).trans (.swap ..), fun o among => ?_⟩
        rcases mem_cons.mp among with rfl | among
        · exact (lt_of_not_ge gt).le
        · exact greatest o among

end Heap

/-! ## The merge -/

structure Lane (ε κ α : Type) where
  head : Option (κ × α)
  rest : List (Except ε (κ × α))

structure Merge (ε κ α : Type) where
  lanes : List (Lane ε κ α)
  heap : List (Head κ)

def Lane.ofStream (stream : List (Except ε (κ × α))) : Lane ε κ α :=
  match nextItem stream with
  | some (item, rest) => ⟨some item, rest⟩
  | none => ⟨none, []⟩

def Lane.left (lane : Lane ε κ α) : List (κ × α) := lane.head.toList ++ goodItems lane.rest

theorem Lane.left_ofStream (stream : List (Except ε (κ × α))) : (ofStream stream).left = goodItems stream := by
  unfold ofStream
  split
  case h_1 item rest next => rw [goodItems_of_nextItem next]; rfl
  case h_2 next => rw [nextItem_eq_none.mp next]; rfl

theorem Lane.drained_ofStream {stream : List (Except ε (κ × α))} (drained : (ofStream stream).head = none) :
    (ofStream stream).left = [] := by
  unfold ofStream at *
  split
  case h_1 item rest next => simp [next] at drained
  case h_2 => rfl

namespace Merge

variable (streams : List (List (Except ε (κ × α))))

def start : Merge ε κ α :=
  let lanes := streams.map Lane.ofStream
  ⟨lanes, lanes.zipIdx.filterMap fun (lane, index) => lane.head.map fun item => ⟨item.1, index⟩⟩

def advance (merge : Merge ε κ α) (index : Nat) : Option ((κ × α) × Merge ε κ α) :=
  match merge.lanes[index]? with
  | some ⟨some item, stream⟩ =>
    let lane := Lane.ofStream stream
    some (item, ⟨merge.lanes.set index lane, lane.head.toList.map (fun next => ⟨next.1, index⟩) ++ merge.heap⟩)
  | _ => none

def left (merge : Merge ε κ α) : List (κ × α) := merge.lanes.flatMap Lane.left

variable [LinearOrder R] {rank : κ → R}

structure Ready (rank : κ → R) (merge : Merge ε κ α) : Prop where
  mem_heap : ∀ head, head ∈ merge.heap ↔
    ∃ lane item, merge.lanes[head.stream]? = some lane ∧ lane.head = some item ∧ head.key = item.1
  nodup : merge.heap.Nodup
  drained : ∀ lane ∈ merge.lanes, lane.head = none → lane.left = []
  descending : ∀ lane ∈ merge.lanes, lane.left.Pairwise fun first second => rank second.1 < rank first.1

theorem start_left : (start streams).left = streams.flatMap goodItems := by
  simp [start, left, flatMap_map, Lane.left_ofStream]

theorem start_ready {streams : List (List (Except ε (κ × α)))}
    (descending : ∀ stream ∈ streams, (goodItems stream).Pairwise fun a b => rank b.1 < rank a.1) :
    (start streams).Ready rank where
  mem_heap head := by
    obtain ⟨k, index⟩ := head
    constructor
    · intro waits
      obtain ⟨⟨lane, _⟩, ls, headed⟩ := mem_filterMap.mp waits
      obtain ⟨item, a, ⟨⟩⟩ := map_eq_some_iff.mp headed
      exact ⟨lane, item, mem_zipIdx_iff_getElem?.mp ls, a, rfl⟩
    · rintro ⟨lane, item, got, a, eq⟩
      refine mem_filterMap.mpr ⟨(lane, index), mem_zipIdx_iff_getElem?.mpr got, ?_⟩
      exact map_eq_some_iff.mpr ⟨item, a, by rw [← eq]⟩
  nodup := by
    -- two heads differ in their streams
    have indices : (start streams).lanes.zipIdx.Pairwise fun a b => a.2 ≠ b.2 := by
      refine pairwise_map.mp ?_
      rw [zipIdx_map_snd]
      exact nodup_range'
    refine indices.filterMap _ fun a b differ head headed o headed' eq => ?_
    obtain ⟨_, -, rfl⟩ := map_eq_some_iff.mp headed
    obtain ⟨_, -, rfl⟩ := map_eq_some_iff.mp headed'
    exact differ (congrArg Head.stream eq)
  drained lane among := by
    obtain ⟨stream, -, rfl⟩ := mem_map.mp among
    exact Lane.drained_ofStream
  descending lane among := by
    obtain ⟨stream, mem, rfl⟩ := mem_map.mp among
    rw [Lane.left_ofStream]
    exact descending stream mem

theorem flatMap_set_perm {β γ : Type} (f : β → List γ) {list : List β} {i : Nat} {old new : β} {item : γ}
    (here : list[i]? = some old) (gives : f old = item :: f new) :
    (list.flatMap f).Perm (item :: (list.set i new).flatMap f) := by
  induction list generalizing i with
  | nil => cases here
  | cons a rest ih =>
    cases i with
    | zero =>
      cases here
      simp [gives]
    | succ i =>
      have rest := (ih here).append_left (f a)
      exact rest.trans perm_middle

namespace Ready

variable {merge : Merge ε κ α}

theorem left_eq_nil (ok : merge.Ready rank) : merge.left = [] ↔ merge.heap = [] := by
  constructor
  · intro empty
    refine eq_nil_iff_forall_not_mem.mpr fun head among => ?_
    obtain ⟨lane, item, found, a, -⟩ := (ok.mem_heap head).mp among
    have : item ∈ merge.left := mem_flatMap.mpr ⟨lane, mem_of_getElem? found, by simp [Lane.left, a]⟩
    rw [empty] at this
    cases this
  · intro empty
    refine flatMap_eq_nil_iff.mpr fun lane among => ok.drained lane among ?_
    -- a head would be in the heap
    cases a : lane.head with
    | none => rfl
    | some item =>
      obtain ⟨i, found⟩ := mem_iff_getElem?.mp among
      have := (ok.mem_heap ⟨item.1, i⟩).mpr ⟨lane, item, found, a, rfl⟩
      rw [empty] at this
      cases this

variable {head : Head κ} {heap : List (Head κ)}

theorem le_of_pop (ok : merge.Ready rank) (popped : popMax rank merge.heap = some (head, heap)) {item : κ × α}
    (mem : item ∈ merge.left) : rank item.1 ≤ rank head.key := by
  obtain ⟨perm, greatest⟩ := popMax_spec rank popped
  obtain ⟨lane, among, held⟩ := mem_flatMap.mp mem
  obtain ⟨i, found⟩ := mem_iff_getElem?.mp among
  cases a : lane.head with
  | none =>
    rw [ok.drained lane among a] at held
    cases held
  | some top =>
    have top_le : rank top.1 ≤ rank head.key := by
      have waits := (ok.mem_heap ⟨top.1, i⟩).mpr ⟨lane, top, found, a, rfl⟩
      rcases mem_cons.mp (perm.mem_iff.mp waits) with rfl | waits
      · exact le_rfl
      · exact greatest _ waits
    have descending := ok.descending lane among
    simp only [Lane.left, a, toList_some, singleton_append, mem_cons, pairwise_cons] at held descending
    rcases held with rfl | behind
    · exact top_le
    · exact (descending.1 item behind).le.trans top_le

theorem stream_ne (ok : merge.Ready rank) {o : Head κ} (popped : popMax rank merge.heap = some (head, heap))
    (waits : o ∈ heap) : o.stream ≠ head.stream := by
  obtain ⟨perm, -⟩ := popMax_spec rank popped
  have distinct := perm.nodup_iff.mp ok.nodup
  intro eq
  obtain ⟨lane, item, got, a, key⟩ := (ok.mem_heap head).mp (perm.mem_iff.mpr mem_cons_self)
  obtain ⟨lane', item', got', a', key'⟩ := (ok.mem_heap o).mp (perm.mem_iff.mpr (.tail _ waits))
  obtain rfl : lane = lane' := some.inj (got.symm.trans (eq ▸ got'))
  obtain rfl : item = item' := some.inj (a.symm.trans a')
  have again : o = head := by
    cases o
    cases head
    simp_all
  exact (nodup_cons.mp distinct).1 (again ▸ waits)

theorem advance (ok : merge.Ready rank) (popped : popMax rank merge.heap = some (head, heap)) :
    ∃ item next, Merge.advance ⟨merge.lanes, heap⟩ head.stream = some (item, next) ∧ head.key = item.1 ∧
      next.Ready rank ∧ merge.left.Perm (item :: next.left) := by
  obtain ⟨perm, -⟩ := popMax_spec rank popped
  have distinct := perm.nodup_iff.mp ok.nodup
  obtain ⟨⟨top, stream⟩, item, got, a, key⟩ := (ok.mem_heap head).mp (perm.mem_iff.mpr mem_cons_self)
  cases a
  have gives : Lane.left ⟨some item, stream⟩ = item :: (Lane.ofStream stream).left := by
    rw [Lane.left_ofStream]
    rfl
  let lane : Lane ε κ α := .ofStream stream
  let entered : List (Head κ) := lane.head.toList.map fun next => ⟨next.1, head.stream⟩
  have mem : head.stream < merge.lanes.length := (List.getElem?_eq_some_iff.mp got).1
  have others : ∀ other ∈ heap, other.stream ≠ head.stream := fun _ => ok.stream_ne popped
  refine ⟨item, ⟨merge.lanes.set head.stream lane, entered ++ heap⟩, by simp [Merge.advance, got, lane, entered], key,
    ⟨fun other => ?_, ?_, fun lane' among => ?_, fun lane' among => ?_⟩, flatMap_set_perm Lane.left got gives⟩
  · rw [mem_append]
    by_cases eq : other.stream = head.stream
    · rw [eq, getElem?_set_self mem]
      constructor
      · rintro (entered | waits)
        · obtain ⟨next, top, rfl⟩ := mem_map.mp entered
          exact ⟨lane, next, rfl, mem_toList.mp top, rfl⟩
        · exact absurd eq (others other waits)
      · rintro ⟨_, next, ⟨⟩, top, key⟩
        refine .inl (mem_map.mpr ⟨next, mem_toList.mpr top, ?_⟩)
        rw [← key, ← eq]
    · rw [getElem?_set_ne (Ne.symm eq), ← ok.mem_heap, perm.mem_iff, mem_cons]
      constructor
      · rintro (entered | waits)
        · obtain ⟨next, -, rfl⟩ := mem_map.mp entered
          exact absurd rfl eq
        · exact .inr waits
      · rintro (rfl | waits)
        · exact absurd rfl eq
        · exact .inr waits
  · refine nodup_append.mpr ⟨?_, (nodup_cons.mp distinct).2, fun a enters b waits eq => ?_⟩
    · cases top : lane.head <;> simp [entered, top]
    · obtain ⟨next, -, rfl⟩ := mem_map.mp enters
      exact others b waits (by rw [← eq])
  · rcases mem_or_eq_of_mem_set among with among | rfl
    · exact ok.drained lane' among
    · exact Lane.drained_ofStream
  · rcases mem_or_eq_of_mem_set among with among | rfl
    · exact ok.descending lane' among
    · have descending := ok.descending _ (mem_of_getElem? got)
      rw [gives] at descending
      exact (pairwise_cons.mp descending).2

end Ready

end Merge
end Wbfuwunel.Foundation
