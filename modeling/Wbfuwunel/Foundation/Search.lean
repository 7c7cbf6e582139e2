import Mathlib.Data.List.Pairwise
import Mathlib.Order.Lattice

/-! Binary search in a list, as the standard library of the source's language does it on a slice. -/

set_option autoImplicit false

namespace Wbfuwunel.Foundation

open Option

variable {α : Type} [LinearOrder α]

/-- The window of `size` elements from `base` on is halved until one is left. A round takes off at least one element, so
as many rounds as elements are enough. -/
def narrow (list : List α) (key : α) : (rounds base size : Nat) → Nat
  | 0, base, _ => base
  | rounds + 1, base, size =>
    if size > 1 then
      let half := size / 2
      let base := if (list[base + half]?).any (key < ·) then base else base + half
      narrow list key rounds base (size - half)
    else base

def binarySearch (list : List α) (key : α) : Option Nat :=
  let base := narrow list key list.length 0 list.length
  if list[base]? = some key then some base else none

variable {list : List α} {k : α} {i : Nat}

theorem narrow_eq (ord : list.Pairwise (· < ·)) (got : list[i]? = some k) {rounds base size : Nat}
    (enough : size ≤ rounds) (within : base + size ≤ list.length) (gt : base ≤ i) (lt : i < base + size) :
    narrow list k rounds base size = i := by
  induction rounds generalizing base size with
  | zero => omega
  | succ rounds ih =>
    rw [narrow]
    split
    · obtain ⟨mem, rfl⟩ := List.getElem?_eq_some_iff.mp got
      have ordered := List.pairwise_iff_getElem.mp ord
      have middle : base + size / 2 < list.length := by omega
      simp only [List.getElem?_eq_getElem middle, any_some, decide_eq_true_eq]
      -- the element in the middle says in which half the key is
      by_cases right : base + size / 2 ≤ i
      · have kept : ¬list[i] < list[base + size / 2] := by
          rcases Nat.lt_or_eq_of_le right with old | eq
          · exact (ordered _ _ middle mem old).not_gt
          · simp only [eq, lt_irrefl, not_false_eq_true]
        rw [if_neg kept]
        exact ih (by omega) (by omega) right (by omega)
      · rw [if_pos (ordered _ _ mem middle (by omega))]
        exact ih (by omega) (by omega) gt (by omega)
    · omega

/-- In a sorted list the search finds the key wherever it is, and nothing else. -/
theorem binarySearch_eq_some_iff (ord : list.Pairwise (· < ·)) : binarySearch list k = some i ↔ list[i]? = some k := by
  unfold binarySearch
  constructor
  · intro searched
    simp only [ite_none_right_eq_some, some.injEq] at searched
    obtain ⟨got, rfl⟩ := searched
    exact got
  · intro got
    have mem : i < list.length := (List.getElem?_eq_some_iff.mp got).1
    have hit := narrow_eq ord got (Nat.le_refl list.length) (by omega) (Nat.zero_le i) (by omega)
    simp only [hit, got, if_true]

end Wbfuwunel.Foundation
