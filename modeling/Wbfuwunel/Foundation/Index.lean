import Mathlib.Data.Finset.Card

/-! Sets by key. A key whose set has become empty is meant to have no row; a row may still hold the empty set. -/

set_option autoImplicit false

namespace Wbfuwunel.Foundation

structure Index (K V : Type) where
  rows : K → Option (Finset V)

namespace Index

section Reading

variable {K V : Type}

def empty : Index K V := ⟨fun _ => none⟩

def members (index : Index K V) (key : K) : Finset V := (index.rows key).getD ∅

def Tight (index : Index K V) : Prop := ∀ key, index.rows key ≠ some ∅

variable (values : Finset V)

def kept : Option (Finset V) := if values.card = 0 then none else some values

@[simp] theorem members_empty (k : K) : (empty : Index K V).members k = ∅ := rfl

theorem tight_empty : (empty : Index K V).Tight := fun _ => by simp [empty]

@[simp] theorem getD_kept : (kept values).getD ∅ = values := by
  unfold kept
  split
  next nothing =>
    exact (Finset.card_eq_zero.mp nothing).symm
  · rfl

theorem kept_ne_empty : kept values ≠ some ∅ := by
  unfold kept
  split
  · simp
  next something =>
    rintro ⟨⟩
    exact something Finset.card_empty

end Reading

section Erasing

variable {K V : Type} [DecidableEq V] (index : Index K V)

def eraseAll (value : V) : Index K V :=
  ⟨fun key => (index.rows key).bind fun values => kept (values.erase value)⟩

@[simp] theorem members_eraseAll (v : V) (k : K) : (index.eraseAll v).members k = (index.members k).erase v := by
  cases hit : index.rows k with
  | none => simp [members, eraseAll, hit]
  | some values => simp [members, eraseAll, hit]

theorem tight_eraseAll (v : V) : (index.eraseAll v).Tight := by
  intro k
  cases hit : index.rows k with
  | none => simp [eraseAll, hit]
  | some values => simpa [eraseAll, hit] using kept_ne_empty _

end Erasing

variable {K V : Type} [DecidableEq K] [DecidableEq V]

def add (index : Index K V) (key : K) (value : V) : Index K V :=
  ⟨Function.update index.rows key (some (insert value (index.members key)))⟩

def erase (index : Index K V) (key : K) (value : V) : Index K V :=
  match index.rows key with
  | none => index
  | some values => ⟨Function.update index.rows key (kept (values.erase value))⟩

variable {i : Index K V} {k o : K} {v got : V}

theorem mem_add : got ∈ (i.add k v).members o ↔ o = k ∧ got = v ∨ got ∈ i.members o := by
  by_cases eq : o = k
  · subst eq
    simp [members, add]
  · simp [members, add, eq]

theorem mem_erase : got ∈ (i.erase k v).members o ↔ got ∈ i.members o ∧ ¬(o = k ∧ got = v) := by
  unfold erase
  cases hit : i.rows k with
  | none =>
    have nothing : i.members k = ∅ := by simp [members, hit]
    refine (and_iff_left_of_imp ?_).symm
    rintro mem ⟨rfl, -⟩
    simp [nothing] at mem
  | some values =>
    by_cases eq : o = k
    · subst eq
      simp [members, hit, and_comm]
    · simp [members, eq]

theorem Tight.add (tight : i.Tight) (k : K) (v : V) : (i.add k v).Tight := by
  intro o
  unfold Index.add
  by_cases eq : o = k
  · simp [eq]
  · simpa [eq] using tight o

theorem Tight.erase (tight : i.Tight) (k : K) (v : V) : (i.erase k v).Tight := by
  unfold Index.erase
  cases i.rows k with
  | none => exact tight
  | some values =>
    intro o
    by_cases eq : o = k
    · simpa [eq] using kept_ne_empty _
    · simpa [eq] using tight o

end Index

end Wbfuwunel.Foundation
