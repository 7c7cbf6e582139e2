import Mathlib.Data.List.Forall2

/-!
Chains of checks in `Except`: a function that refuses its input check after check returns a value exactly
when every check passed.
-/

set_option autoImplicit false

namespace Wbfuwunel.Foundation

variable {ε α : Type} {v : α}

@[simp] theorem check_eq_ok {refused : Prop} [Decidable refused] {error : ε} {next : Except ε α} :
    (if refused then .error error else next) = .ok v ↔ ¬refused ∧ next = .ok v := by
  by_cases h : refused <;> simp [h]

theorem check_eq_error {refused : Prop} [Decidable refused] {error o : ε} {next : Except ε α} :
    (if refused then .error error else next) = .error o ↔ refused ∧ error = o ∨ ¬refused ∧ next = .error o := by
  by_cases h : refused <;> simp [h]

variable {β ε' : Type} {a : Except ε β}

theorem bind_eq_ok {next : β → Except ε α} : (a >>= next) = .ok v ↔ ∃ middle, a = .ok middle ∧ next middle = .ok v := by
  cases a <;> simp [bind, Except.bind]

theorem map_eq_ok {change : β → α} : a.map change = .ok v ↔ ∃ middle, a = .ok middle ∧ change middle = v := by
  cases a <;> simp [Except.map]

theorem map_eq_error {change : β → α} {o : ε} : a.map change = .error o ↔ a = .error o := by
  cases a <;> simp [Except.map]

@[simp] theorem mapError_eq_ok {change : ε → ε'} {v : β} : a.mapError change = .ok v ↔ a = .ok v := by
  cases a with
  | error error => exact ⟨nofun, nofun⟩
  | ok got => exact ⟨fun eq => congrArg _ (Except.ok.inj eq), fun eq => congrArg _ (Except.ok.inj eq)⟩

theorem toOption_eq_some {v : β} : a.toOption = some v ↔ a = .ok v := by
  cases a <;> simp [Except.toOption]

variable {read : α → Except ε β} {list : List α} {results : List β}

theorem forall₂_of_mapM_eq_ok (succeeds : list.mapM read = .ok results) :
    List.Forall₂ (fun x result => read x = .ok result) list results := by
  induction list generalizing results with
  | nil => cases succeeds; exact .nil
  | cons head tail ih =>
    rw [List.mapM_cons, bind_eq_ok] at succeeds
    obtain ⟨new, here, succeeds⟩ := succeeds
    obtain ⟨rest, there, succeeds⟩ := bind_eq_ok.mp succeeds
    cases succeeds
    exact .cons here (ih there)

theorem exists_of_mapM_eq_ok (succeeds : list.mapM read = .ok results) {result : β} (mem : result ∈ results) :
    ∃ x ∈ list, read x = .ok result := by
  have pairs := forall₂_of_mapM_eq_ok succeeds
  obtain ⟨i, within, rfl⟩ := List.getElem_of_mem mem
  rw [← pairs.length_eq] at within
  exact ⟨_, List.getElem_mem within, pairs.get within _⟩

end Wbfuwunel.Foundation
