import Mathlib.Data.Finset.Sort

/-! Differences between sets: what is added and what is removed, how two in a row become one, and how a list of elements
moves through a pair of sets.
-/

set_option autoImplicit false

namespace Wbfuwunel.Foundation

open Finset

variable {α : Type} [LinearOrder α]

/-- `added` and `removed` lead from `base` to `state`, and say nothing they need not say. -/
structure IsDelta (base state added removed : Finset α) : Prop where
  added_eq : added = state \ base
  removed_eq : removed = base \ state

theorem isDelta_self (base s : Finset α) : IsDelta base s (s \ base) (base \ s) := ⟨rfl, rfl⟩

variable {base s added removed : Finset α}

theorem IsDelta.apply (delta : IsDelta base s added removed) : (base ∪ added) \ removed = s := by
  rw [delta.added_eq, delta.removed_eq]
  ext x
  simp only [mem_sdiff, mem_union]
  tauto

def cancel (sets : Finset α × Finset α) (element : α) : Finset α × Finset α :=
  if element ∈ sets.1 then (sets.1.erase element, sets.2) else (sets.1, insert element sets.2)

theorem foldl_cancel (elements : List α) (distinct : elements.Nodup) (sets : Finset α × Finset α) :
    elements.foldl cancel sets = (sets.1 \ elements.toFinset, sets.2 ∪ (elements.toFinset \ sets.1)) := by
  induction elements generalizing sets with
  | nil => simp
  | cons x elements ih =>
    obtain ⟨fresh, distinct⟩ := List.nodup_cons.mp distinct
    rw [List.foldl_cons, ih distinct, cancel]
    split
    next mem =>
      ext o <;> by_cases eq : o = x <;> simp [eq, mem, fresh]
    next out =>
      ext o <;> by_cases eq : o = x <;> simp [eq, out]

/-- A difference on top of another, element by element: what is removed was added below or is removed from the base, and
the other way round. -/
def mergeDelta (belowAdded belowRemoved added removed : Finset α) : Finset α × Finset α :=
  let removing := removed.sort.foldl cancel (belowAdded, belowRemoved)
  let adding := added.sort.foldl cancel (removing.2, removing.1)
  (adding.2, adding.1)

theorem IsDelta.merge {middle belowAdded belowRemoved : Finset α} (lt : IsDelta base middle belowAdded belowRemoved)
    (gt : IsDelta middle s added removed) : IsDelta base s (mergeDelta belowAdded belowRemoved added removed).1
      (mergeDelta belowAdded belowRemoved added removed).2 := by
  simp only [mergeDelta, foldl_cancel _ (sort_nodup _ _), sort_toFinset]
  obtain ⟨rfl, rfl⟩ := lt
  obtain ⟨rfl, rfl⟩ := gt
  constructor <;> ext x <;> simp only [mem_union, mem_sdiff] <;> tauto

end Wbfuwunel.Foundation
