import Mathlib.Tactic.ByContra
import Mathlib.Tactic.Tauto
import Wbfuwunel.Rooms.Pdu

/-! What the two numbers of a room's events are for.

A ledger is a room's events in the order they were numbered. The forward ones count up from one and the history counts
down from zero, so one number places an event among all of its room, and the server-wide count places it the same way.
-/

set_option autoImplicit false

namespace Wbfuwunel.Rooms

open Foundation List

/-- The counts of the events lead away from the origin. -/
abbrev Away (pduIds : List PduId) : Prop := pduIds.Pairwise fun first second => first.count.size < second.count.size

structure Ledger where
  appended : List PduId := []
  backfilled : List PduId := []
  forward : ∀ pduId ∈ appended, pduId.count = .normal pduId.count.size := by simp
  history : ∀ pduId ∈ backfilled, pduId.count = .backfilled pduId.count.size := by simp
  positive : ∀ pduId, pduId ∈ appended ∨ pduId ∈ backfilled → 0 < pduId.count.size := by simp
  ascending : Away appended := by simp
  descending : Away backfilled := by simp

namespace Ledger

variable {ledger : Ledger} {pduId a b : PduId} {rSeq number : Int}

def Lists (ledger : Ledger) (pduId : PduId) : Prop := pduId ∈ ledger.appended ∨ pduId ∈ ledger.backfilled

inductive Numbers (ledger : Ledger) : PduId → Int → Prop where
  | appended {index : Nat} {pduId : PduId} (listed : ledger.appended[index]? = some pduId) :
      Numbers ledger pduId (index + 1)
  | backfilled {index : Nat} {pduId : PduId} (listed : ledger.backfilled[index]? = some pduId) :
      Numbers ledger pduId (-index)

theorem lists_iff : ledger.Lists pduId ↔ ∃ rSeq, ledger.Numbers pduId rSeq := by
  constructor
  · rintro (listed | listed)
    · obtain ⟨i, listed⟩ := mem_iff_getElem?.mp listed
      exact ⟨_, .appended listed⟩
    · obtain ⟨i, listed⟩ := mem_iff_getElem?.mp listed
      exact ⟨_, .backfilled listed⟩
  · rintro ⟨rSeq, numbers⟩
    cases numbers with
    | appended listed => exact .inl (mem_of_getElem? listed)
    | backfilled listed => exact .inr (mem_of_getElem? listed)

/-! ## The two orders -/

variable {pduIds : List PduId} {i : Nat}

theorem index_lt_iff (away : Away pduIds) {o : Nat} (here : pduIds[i]? = some a)
    (there : pduIds[o]? = some b) : i < o ↔ a.count.size < b.count.size := by
  obtain ⟨mem, rfl⟩ := List.getElem?_eq_some_iff.mp here
  obtain ⟨mem', rfl⟩ := List.getElem?_eq_some_iff.mp there
  have rises := pairwise_iff_getElem.mp away
  rcases Nat.lt_trichotomy i o with old | rfl | after
  · exact iff_of_true old (rises i o mem mem' old)
  · simp
  · exact iff_of_false (by omega) (Nat.lt_asymm (rises o i mem' mem after))

theorem Numbers.signed (numbers : ledger.Numbers pduId rSeq) :
    0 < rSeq ∧ pduId.count.signed = pduId.count.size ∨ rSeq ≤ 0 ∧ pduId.count.signed = -pduId.count.size := by
  cases numbers with
  | appended ls =>
    refine .inl ⟨by omega, ?_⟩
    rw [ledger.forward pduId (mem_of_getElem? ls)]
    rfl
  | backfilled ls =>
    refine .inr ⟨by omega, ?_⟩
    rw [ledger.history pduId (mem_of_getElem? ls)]
    rfl

theorem Numbers.positive (numbers : ledger.Numbers pduId rSeq) : 0 < pduId.count.size :=
  ledger.positive pduId (lists_iff.mpr ⟨rSeq, numbers⟩)

theorem Numbers.lt_iff (ofFirst : ledger.Numbers a rSeq) (ofSecond : ledger.Numbers b number) :
    rSeq < number ↔ a.count.signed < b.count.signed := by
  have positive := ofFirst.positive
  have positive' := ofSecond.positive
  have signed := ofFirst.signed
  have signed' := ofSecond.signed
  cases ofFirst with
  | appended ls =>
    cases ofSecond with
    | appended ls' =>
      have eq := index_lt_iff ledger.ascending ls ls'
      omega
    | backfilled ls' => omega
  | backfilled ls =>
    cases ofSecond with
    | appended ls' => omega
    | backfilled ls' =>
      -- History runs away from the origin, downwards.
      have eq := index_lt_iff ledger.descending ls' ls
      omega

theorem Numbers.unique (ofFirst : ledger.Numbers a rSeq) (ofSecond : ledger.Numbers b rSeq) : a = b := by
  generalize eq : rSeq = number at ofSecond
  cases ofFirst with
  | @appended i _ ls =>
    cases ofSecond with
    | @appended o _ ls' =>
      obtain rfl : i = o := by omega
      exact Option.some.inj (ls.symm.trans ls')
    | backfilled ls' => omega
  | @backfilled i _ ls =>
    cases ofSecond with
    | appended ls' => omega
    | @backfilled o _ ls' =>
      obtain rfl : i = o := by omega
      exact Option.some.inj (ls.symm.trans ls')

/-! ## How far the numbers go -/

theorem index_lt_size (away : Away pduIds) (positive : ∀ pduId ∈ pduIds, 0 < pduId.count.size)
    (ls : pduIds[i]? = some pduId) : i < pduId.count.size := by
  induction i generalizing pduId with
  | zero => exact positive pduId (mem_of_getElem? ls)
  | succ i ih =>
    obtain ⟨mem, -⟩ := List.getElem?_eq_some_iff.mp ls
    have old : pduIds[i]? = some pduIds[i] := getElem?_eq_getElem _
    have rises := (index_lt_iff away old ls).mp (Nat.lt_succ_self i)
    have hit := ih old
    omega

theorem length_le (away : Away pduIds) (positive : ∀ pduId ∈ pduIds, 0 < pduId.count.size) {n : Nat}
    (bounded : ∀ pduId ∈ pduIds, pduId.count.size ≤ n) : pduIds.length ≤ n := by
  by_contra more
  have ls : pduIds[n]? = some pduIds[n] := getElem?_eq_getElem _
  have hit := index_lt_size away positive ls
  have lt := bounded _ (mem_of_getElem? ls)
  omega

theorem Numbers.within (numbers : ledger.Numbers pduId rSeq) :
    -(pduId.count.size : Int) ≤ rSeq ∧ rSeq ≤ pduId.count.size := by
  cases numbers with
  | appended ls =>
    have hit := index_lt_size ledger.ascending (fun o mem => ledger.positive o (.inl mem)) ls
    omega
  | backfilled ls =>
    have hit := index_lt_size ledger.descending (fun o mem => ledger.positive o (.inr mem)) ls
    omega

/-! ## One more event -/

def bounds (ledger : Ledger) : SeqBounds where
  lastForward := clampSigned64 ledger.appended.length
  nextBackfilled := clampSigned64 (-ledger.backfilled.length)

structure Ahead (ledger : Ledger) (count : Nat) : Prop where
  positive : 0 < count
  above : ∀ pduId, ledger.Lists pduId → pduId.count.size < count

theorem away_concat (pduId : PduId) (away : Away pduIds) (gt : ∀ o ∈ pduIds, o.count.size < pduId.count.size) :
    Away (pduIds ++ [pduId]) := by
  refine pairwise_append.mpr ⟨away, pairwise_singleton _ _, ?_⟩
  intro o mem last eq
  rw [mem_singleton.mp eq]
  exact gt o mem

def append (ledger : Ledger) (short count : Nat) (ahead : ledger.Ahead count) : Ledger := { ledger with
  appended := ledger.appended ++ [⟨short, .normal count⟩]
  forward pduId member := by
    rcases mem_append.mp member with old | new
    · exact ledger.forward pduId old
    · rw [mem_singleton.mp new]
      rfl
  positive pduId member := by
    rw [mem_append, mem_singleton, or_right_comm] at member
    rcases member with old | rfl
    · exact ledger.positive pduId old
    · exact ahead.positive
  ascending := away_concat ⟨short, .normal count⟩ ledger.ascending fun other member => ahead.above other (.inl member) }

def backfill (ledger : Ledger) (short count : Nat) (ahead : ledger.Ahead count) : Ledger := { ledger with
  backfilled := ledger.backfilled ++ [⟨short, .backfilled count⟩]
  history pduId member := by
    rcases mem_append.mp member with old | new
    · exact ledger.history pduId old
    · rw [mem_singleton.mp new]
      rfl
  positive pduId member := by
    rw [mem_append, mem_singleton, ← or_assoc] at member
    rcases member with old | rfl
    · exact ledger.positive pduId old
    · exact ahead.positive
  descending := away_concat ⟨short, .backfilled count⟩ ledger.descending fun other member => ahead.above other (.inr member) }

variable {k n : Nat} (ahead : ledger.Ahead n)
include ahead

theorem lists_append : (ledger.append k n ahead).Lists pduId ↔ ledger.Lists pduId ∨ pduId = ⟨k, .normal n⟩ := by
  simp only [Lists, append, mem_append, mem_singleton]
  tauto

theorem lists_backfill : (ledger.backfill k n ahead).Lists pduId ↔ ledger.Lists pduId ∨ pduId = ⟨k, .backfilled n⟩ := by
  simp only [Lists, backfill, mem_append, mem_singleton]
  tauto

omit ahead in
theorem getElem?_concat_cases {last : PduId} (ls : (pduIds ++ [last])[i]? = some pduId) :
    pduIds[i]? = some pduId ∨ pduId = last ∧ i = pduIds.length := by
  rcases Nat.lt_trichotomy i pduIds.length with mem | rfl | out
  · exact .inl ((getElem?_append_left mem).symm.trans ls)
  · exact .inr ⟨by simpa using ls.symm, rfl⟩
  · have hit := (List.getElem?_eq_some_iff.mp ls).1
    simp at hit
    omega

theorem numbers_append (numbers : (ledger.append k n ahead).Numbers pduId rSeq) :
    ledger.Numbers pduId rSeq ∨ pduId = ⟨k, .normal n⟩ ∧ rSeq = ledger.appended.length + 1 := by
  cases numbers with
  | appended ls =>
    rcases getElem?_concat_cases ls with old | ⟨rfl, rfl⟩
    · exact .inl (.appended old)
    · exact .inr ⟨rfl, rfl⟩
  | backfilled ls => exact .inl (.backfilled ls)

theorem numbers_backfill (numbers : (ledger.backfill k n ahead).Numbers pduId rSeq) :
    ledger.Numbers pduId rSeq ∨ pduId = ⟨k, .backfilled n⟩ ∧ rSeq = -ledger.backfilled.length := by
  cases numbers with
  | appended ls => exact .inl (.appended ls)
  | backfilled ls =>
    rcases getElem?_concat_cases ls with old | ⟨rfl, rfl⟩
    · exact .inl (.backfilled old)
    · exact .inr ⟨rfl, rfl⟩

theorem takeForward_bounds : ledger.bounds.takeForward =
    (clampSigned64 (ledger.appended.length + 1), (ledger.append k n ahead).bounds) := by
  have once : clampSigned64 (clampSigned64 ledger.appended.length + 1) = clampSigned64 (ledger.appended.length + 1) := by
    unfold clampSigned64
    omega
  simp [SeqBounds.takeForward, bounds, append, once]

theorem takeBackfilled_bounds : ledger.bounds.takeBackfilled =
    (clampSigned64 (-ledger.backfilled.length), (ledger.backfill k n ahead).bounds) := by
  have once : clampSigned64 (clampSigned64 (-ledger.backfilled.length) - 1) =
      clampSigned64 (-(ledger.backfilled.length + 1)) := by
    unfold clampSigned64
    omega
  simp [SeqBounds.takeBackfilled, bounds, backfill, once]

end Ledger

end Wbfuwunel.Rooms
