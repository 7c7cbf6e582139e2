import Mathlib.Data.List.Sort

/-! `utils/set/intersection_sorted.rs`: the elements of the first sequence that every other one has.

Each other input is a cursor that is asked for one element after another. It goes past the element it stops at, whether
that is the one asked for or a later one, so an input with too few elements in between runs ahead of the targets.
-/

set_option autoImplicit false

namespace Wbfuwunel.Core

open List

variable {Item : Type} [LinearOrder Item]

/-- `skip_while`, `peekable` and `peek` on an iterator by reference: whether the target is there, and what is left. -/
def poll (targ : Item) (input : List Item) : Bool × List Item :=
  let rest := input.dropWhile (· < targ)
  (rest.head? = some targ, rest.tail)

/-- `all`: the inputs behind the first one without the target are not asked. -/
def pollAll (targ : Item) : List (List Item) → Bool × List (List Item)
  | [] => (true, [])
  | input :: inputs =>
    if (poll targ input).1 then ((pollAll targ inputs).1, (poll targ input).2 :: (pollAll targ inputs).2)
    else (false, (poll targ input).2 :: inputs)

def filterCommon : List Item → List (List Item) → List Item
  | [], _ => []
  | targ :: first, inputs =>
    let common := filterCommon first (pollAll targ inputs).2
    if (pollAll targ inputs).1 then targ :: common else common

def intersectionSorted : List (List Item) → List Item
  | [] => []
  | first :: inputs => filterCommon first inputs

/-- How many elements lie from one up to another. -/
def between (low high : Item) (items : List Item) : Nat := items.countP fun item => low ≤ item ∧ item < high

/-- Up to the element, the input has at least as many as are asked for, counted from any of these on. -/
def Ahead (targets input : List Item) (item : Item) : Prop :=
  ∀ targ ∈ targets, targ < item → between targ item targets ≤ between targ item input

instance (targets input : List Item) (item : Item) : Decidable (Ahead targets input item) :=
  inferInstanceAs (Decidable (∀ _ ∈ _, _))

/-- Those asked for that the input has, and has ahead. -/
def found (targets input : List Item) : List Item :=
  targets.filter fun item => item ∈ input ∧ Ahead targets input item

/-- An input is asked for what the inputs before it had. -/
def AheadInAll : List Item → List (List Item) → Item → Prop
  | _, [], _ => True
  | targets, input :: inputs, item => Ahead targets input item ∧ AheadInAll (found targets input) inputs item

instance decidableAheadInAll : (targets : List Item) → (inputs : List (List Item)) → (item : Item) →
    Decidable (AheadInAll targets inputs item)
  | _, [], _ => inferInstanceAs (Decidable True)
  | targets, input :: inputs, item =>
    have := decidableAheadInAll (found targets input) inputs item
    inferInstanceAs (Decidable (_ ∧ _))

def common (first : List Item) (inputs : List (List Item)) : List Item :=
  first.filter fun item => inputs.all (item ∈ ·)

variable {targ item low high : Item} {first targets input items : List Item} {inputs : List (List Item)}

theorem poll_iff (ascending : input.Pairwise (· < ·)) : (poll targ input).1 ↔ targ ∈ input := by
  induction input with
  | nil => simp [poll]
  | cons head input ih =>
    obtain ⟨later, ascending⟩ := pairwise_cons.mp ascending
    rcases lt_trichotomy head targ with old | rfl | after
    · simpa [poll, old, old.ne'] using ih ascending
    · simp [poll]
    · have absent : targ ∉ input := fun mem => (later targ mem).not_gt after
      simp [poll, after.not_gt, after.ne, after.ne', absent]

/-- An input behind the first is asked only for what the inputs before it had. -/
theorem filterCommon_cons (first : List Item) :
    filterCommon first (input :: inputs) = filterCommon (filterCommon first [input]) inputs := by
  induction first generalizing input inputs with
  | nil => rfl
  | cons targ first ih =>
    by_cases asked : (poll targ input).1
    · simp only [filterCommon, pollAll, asked, if_true]
      rw [ih]
    · simp only [filterCommon, pollAll, asked]
      exact ih

@[simp] theorem between_cons : between low high (item :: items) =
    between low high items + if low ≤ item ∧ item < high then 1 else 0 := by
  simp [between, countP_cons]

theorem between_eq_zero (above : ∀ item ∈ items, high ≤ item) : between low high items = 0 := by
  refine countP_eq_zero.mpr fun item mem => ?_
  simp [(above item mem).not_gt]

theorem between_le_of_le (le : targ ≤ low) : between low high items ≤ between targ high items := by
  refine countP_mono_left fun item _ counted => ?_
  simp only [decide_eq_true_eq] at counted ⊢
  exact ⟨le.trans counted.1, counted.2⟩

/-- Below all elements, it does not matter from where they are counted. -/
theorem between_eq_of_le (above : ∀ item ∈ items, low ≤ item) (le : targ ≤ low) :
    between targ high items = between low high items := by
  refine countP_congr fun item mem => ?_
  simp [above item mem, le.trans (above item mem)]

theorem le_of_ascending (ascending : (low :: items).Pairwise (· < ·)) : ∀ item ∈ low :: items, low ≤ item :=
  forall_mem_cons.mpr ⟨le_rfl, fun item mem => ((pairwise_cons.mp ascending).1 item mem).le⟩

theorem between_dropWhile (le : targ ≤ low) : between low high (input.dropWhile (· < targ)) = between low high input := by
  induction input with
  | nil => rfl
  | cons head input ih =>
    by_cases old : head < targ
    · simpa [old, (old.trans_le le).not_ge] using ih
    · simp [old]

theorem mem_dropWhile_iff (le : targ ≤ item) : item ∈ input.dropWhile (· < targ) ↔ item ∈ input := by
  induction input with
  | nil => rfl
  | cons head input ih =>
    by_cases old : head < targ
    · simpa [old, (old.trans_le le).ne'] using ih
    · simp [old]

/-- A target takes one element, and leaves the input as far ahead of the later ones. -/
theorem ahead_cons_iff (targets : (targ :: first).Pairwise (· < ·)) (ascending : (low :: input).Pairwise (· < ·))
    (le : targ ≤ low) (lt : low < item) : Ahead (targ :: first) (low :: input) item ↔ Ahead first input item := by
  obtain ⟨later, following⟩ := pairwise_cons.mp targets
  obtain ⟨behind, -⟩ := pairwise_cons.mp ascending
  constructor
  · intro ahead other mem below
    rcases le_or_gt other low with early | late
    · have here := ahead targ mem_cons_self (le.trans_lt lt)
      rw [between_cons, between_cons, if_pos ⟨le_rfl, le.trans_lt lt⟩, if_pos ⟨le, lt⟩,
        between_eq_of_le (fun item mem => early.trans (behind item mem).le) (later other mem).le] at here
      exact (between_le_of_le (later other mem).le).trans (Nat.le_of_add_le_add_right here)
    · have here := ahead other (mem_cons_of_mem _ mem) below
      simpa [(later other mem).not_ge, late.not_ge] using here
  · intro ahead other mem below
    rcases mem_cons.mp mem with rfl | mem
    · rw [between_cons, between_cons, if_pos ⟨le_rfl, below⟩, if_pos ⟨le, lt⟩]
      refine Nat.add_le_add_right ?_ 1
      cases first with
      | nil => exact Nat.zero_le _
      | cons next first =>
        -- Counted from the next target on, all the later ones are counted.
        have after := (later next mem_cons_self).le
        have all := le_of_ascending following
        rw [between_eq_of_le all after]
        rcases lt_or_ge next item with near | far
        · exact (ahead next mem_cons_self near).trans (between_le_of_le after)
        · rw [between_eq_zero fun other mem => far.trans (all other mem)]
          exact Nat.zero_le _
    · rw [between_cons, if_neg (fun here => (later other mem).not_ge here.1), between_cons]
      exact (ahead other mem below).trans (Nat.le_add_right _ _)

/-- An input is past the elements below a target, and past the one it stops at. -/
theorem found_cons_iff (targets : (targ :: first).Pairwise (· < ·)) (ascending : input.Pairwise (· < ·))
    (mem : item ∈ first) : (item ∈ input ∧ Ahead (targ :: first) input item) ↔
      item ∈ (poll targ input).2 ∧ Ahead first (poll targ input).2 item := by
  have later := le_of_ascending targets
  have lt := (pairwise_cons.mp targets).1 item mem
  have skipped : Ahead (targ :: first) input item ↔ Ahead (targ :: first) (input.dropWhile (· < targ)) item :=
    forall₂_congr fun other mem => by rw [between_dropWhile (later other mem)]
  rw [skipped, ← mem_dropWhile_iff lt.le, poll]
  have ascending := ascending.sublist (dropWhile_sublist (· < targ))
  have above := head?_dropWhile_not (· < targ) input
  cases rest : input.dropWhile (· < targ) with
  | nil => simp
  | cons low left =>
    rw [rest] at ascending
    have le : targ ≤ low := by simpa [rest] using above
    have behind := (pairwise_cons.mp ascending).1
    rcases lt_trichotomy low item with before | rfl | after
    · rw [ahead_cons_iff targets ascending le before, mem_cons, or_iff_right before.ne']
      rfl
    · -- The target has taken the element itself.
      have taken : ¬Ahead (targ :: first) (low :: left) low := fun ahead => by
        have here := ahead targ mem_cons_self lt
        have none : between targ low (low :: left) = 0 := between_eq_zero (le_of_ascending ascending)
        rw [between_cons, if_pos ⟨le_rfl, lt⟩] at here
        omega
      have gone : low ∉ left := fun mem => (behind low mem).false
      simp [taken, gone]
    · have absent : item ∉ left := fun mem => (behind item mem).not_gt after
      simp [after.ne, absent]

theorem filterCommon_one (targets : first.Pairwise (· < ·)) (ascending : input.Pairwise (· < ·)) :
    filterCommon first [input] = found first input := by
  induction first generalizing input with
  | nil => rfl
  | cons targ first ih =>
    have rest : (first.filter fun item => item ∈ input ∧ Ahead (targ :: first) input item) =
        filterCommon first [(poll targ input).2] := by
      have left : (poll targ input).2.Sublist input := (tail_sublist _).trans (dropWhile_sublist _)
      rw [ih (pairwise_cons.mp targets).2 (ascending.sublist left)]
      exact filter_congr fun item mem => decide_eq_decide.mpr (found_cons_iff targets ascending mem)
    have polled : (poll targ input).1 ↔ targ ∈ input ∧ Ahead (targ :: first) input targ := by
      have ahead : Ahead (targ :: first) input targ := fun other mem lt =>
        absurd lt (le_of_ascending targets other mem).not_gt
      rw [and_iff_left ahead]
      exact poll_iff ascending
    rw [found, filter_cons, rest, filterCommon]
    by_cases asked : (poll targ input).1
    · simp [pollAll, asked, polled.mp asked]
    · have out := mt polled.mpr asked
      simp [pollAll, asked, out]

theorem filterCommon_nil (first : List Item) : filterCommon first [] = first := by
  induction first with
  | nil => rfl
  | cons targ first ih => rw [filterCommon, pollAll, ih, if_pos rfl]

theorem filterCommon_eq (targets : first.Pairwise (· < ·)) (ascending : ∀ input ∈ inputs, input.Pairwise (· < ·)) :
    filterCommon first inputs = (common first inputs).filter (AheadInAll first inputs ·) := by
  induction inputs generalizing first with
  | nil =>
    rw [filterCommon_nil, common, filter_filter]
    exact (filter_eq_self.mpr fun _ _ => Bool.and_eq_true_iff.mpr ⟨decide_eq_true trivial, rfl⟩).symm
  | cons input inputs ih =>
    obtain ⟨here, ascending⟩ := forall_mem_cons.mp ascending
    have within : (found first input).Pairwise (· < ·) := targets.filter _
    rw [filterCommon_cons, filterCommon_one targets here, ih within ascending, common, common, filter_filter,
      filter_filter]
    refine filter_filter.trans (filter_congr fun item _ => ?_)
    rw [Bool.eq_iff_iff]
    simp only [Bool.and_eq_true, decide_eq_true_eq, all_cons]
    rw [AheadInAll]
    tauto

/-- The output is the intersection exactly if each input has enough elements for what it is asked, up to each element
that all of them have. -/
theorem intersection_sorted_exact_iff (targets : first.Pairwise (· < ·))
    (ascending : ∀ input ∈ inputs, input.Pairwise (· < ·)) :
    intersectionSorted (first :: inputs) = common first inputs ↔
      ∀ item ∈ common first inputs, AheadInAll first inputs item := by
  rw [intersectionSorted, filterCommon_eq targets ascending, filter_eq_self]
  simp only [decide_eq_true_eq]

/-- The second input stops at `3` for `2`, the third at `2` for `1`; both are ahead of `4`. -/
theorem intersection_sorted_exact_of_gaps : intersectionSorted [[1, 2, 4], [1, 3, 4], [2, 4]] = [4] :=
  (intersection_sorted_exact_iff (by decide) (by decide)).mpr (by decide)

/-- Looked for as `1`, the second input stops at `2` and goes past it. -/
theorem intersection_sorted_misses : intersectionSorted [[1, 2], [2]] = [] ∧ common [1, 2] [[2]] = [2] := by
  decide

end Wbfuwunel.Core
