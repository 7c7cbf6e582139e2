import Mathlib.Algebra.BigOperators.Group.List.Basic
import Mathlib.Algebra.GroupWithZero.Nat

/-! Lists that change at one position. -/

set_option autoImplicit false

namespace Wbfuwunel.Foundation

open List

variable {α β : Type} {list : List α} {i : Nat} {old : α}

theorem split_of_getElem? (got : list[i]? = some old) :
    ∃ before after, list = before ++ old :: after ∧ (∀ new, list.set i new = before ++ new :: after) ∧
      list.eraseIdx i = before ++ after := by
  obtain ⟨lt, rfl⟩ := List.getElem?_eq_some_iff.mp got
  exact ⟨list.take i, list.drop (i + 1), by simp,
    fun new => set_eq_take_append_cons_drop.trans (if_pos lt), eraseIdx_eq_take_drop_succ ..⟩

theorem mem_eraseIdx_or {element : α} (mem : element ∈ list) (i : Nat) :
    element ∈ list.eraseIdx i ∨ list[i]? = some element := by
  obtain ⟨pos, stands⟩ := mem_iff_getElem?.mp mem
  by_cases eq : pos = i
  · exact .inr (eq ▸ stands)
  · exact .inl (mem_eraseIdx_iff_getElem?.mpr ⟨pos, eq, stands⟩)

theorem map_set_of_eq (read : α → β) (new : α) (got : list[i]? = some old) (eq : read new = read old) :
    (list.set i new).map read = list.map read := by
  obtain ⟨before, after, whole, set, -⟩ := split_of_getElem? got
  rw [set, whole]
  simp [eq]

theorem sum_map_set_lt {cost : α → Nat} {new : α} (got : list[i]? = some old) (less : cost new < cost old) :
    ((list.set i new).map cost).sum < (list.map cost).sum := by
  obtain ⟨before, after, whole, set, -⟩ := split_of_getElem? got
  rw [set, whole]
  simp only [map_append, map_cons, sum_append, sum_cons]
  omega

theorem sum_map_modify_le (cost : α → Nat) (change : α → α) {most : Nat}
    (bounded : ∀ x, cost (change x) ≤ cost x + most) (list : List α) (i : Nat) :
    ((list.modify i change).map cost).sum ≤ (list.map cost).sum + most := by
  induction list generalizing i with
  | nil => simp
  | cons a rest ih =>
    cases i with
    | zero =>
      have changed := bounded a
      simp only [modify_zero_cons, map_cons, sum_cons]
      omega
    | succ i =>
      have changed := ih i
      simp only [modify_succ_cons, map_cons, sum_cons]
      omega

end Wbfuwunel.Foundation
