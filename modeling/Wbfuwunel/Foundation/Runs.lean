import Mathlib.Data.List.Induction

/-! Runs of a deterministic step function, and what holds in every state of one. -/

set_option autoImplicit false

namespace Wbfuwunel.Foundation

open List

variable {σ ε : Type} (step : σ → ε → σ) (state : σ)

def run (events : List ε) : σ := events.foldl step state

def Along (holds : σ → Prop) : σ → List ε → Prop
  | state, [] => holds state
  | state, event :: events => holds state ∧ Along holds (step state event) events

def Admits (allowed : σ → ε → Prop) : σ → List ε → Prop
  | _, [] => True
  | state, event :: events => allowed state event ∧ Admits allowed (step state event) events

instance decidableAdmits (allowed : σ → ε → Prop) [∀ state event, Decidable (allowed state event)] :
    ∀ (state : σ) (events : List ε), Decidable (Admits step allowed state events)
  | _, [] => .isTrue trivial
  | state, event :: events =>
    have := decidableAdmits allowed (step state event) events
    inferInstanceAs (Decidable (allowed state event ∧ Admits step allowed (step state event) events))

variable {step} {holds : σ → Prop} {ok : σ → ε → Prop}

@[simp] theorem run_nil : run step state [] = state := rfl

@[simp] theorem run_cons (e : ε) (es : List ε) : run step state (e :: es) = run step (step state e) es := rfl

theorem run_append (a b : List ε) : run step state (a ++ b) = run step (run step state a) b :=
  foldl_append

variable {state : σ} {events : List ε}

section

variable (along : Along step holds state events)
include along

theorem Along.start : holds state := by
  cases events with
  | nil => exact along
  | cons e events => exact along.1

theorem Along.take (n : Nat) : holds (run step state (events.take n)) := by
  induction events generalizing state n with
  | nil => simpa using along.start
  | cons e events ih =>
    cases n with
    | zero => exact along.1
    | succ n => exact ih along.2 n

theorem Along.last : holds (run step state events) := by
  simpa using along.take events.length

theorem Along.imp {o : σ → Prop} (weaker : ∀ state, holds state → o state) : Along step o state events := by
  induction events generalizing state with
  | nil => exact weaker _ along
  | cons e events ih => exact ⟨weaker _ along.1, ih along.2⟩

end

/-- An invariant that every allowed event keeps holds in every state of an admitted run. -/
theorem along_of_keeps (keeps : ∀ state e, holds state → ok state e → holds (step state e))
    (initially : holds state) (admits : Admits step ok state events) : Along step holds state events := by
  induction events generalizing state with
  | nil => exact initially
  | cons e events ih => exact ⟨initially, ih (keeps state e initially admits.1) admits.2⟩

variable {meets o : σ → ε → Prop}

/-- Where an event keeps a property just if it meets a condition, a run keeps it just if every event does. -/
theorem along_iff_admits {invariant : σ → Prop}
    (keeps : ∀ state e, invariant state → ok state e → invariant (step state e))
    (exact : ∀ state e, invariant state → holds state → ok state e →
      (holds (step state e) ↔ meets state e)) (h : invariant state) (initially : holds state)
    (admits : Admits step ok state events) : Along step holds state events ↔ Admits step meets state events := by
  induction events generalizing state with
  | nil => exact iff_of_true initially trivial
  | cons e events ih =>
    have here := exact state e h initially admits.1
    have later := fun holding => ih (keeps state e h admits.1) holding admits.2
    constructor
    · rintro ⟨-, along⟩
      exact ⟨here.mp along.start, (later along.start).mp along⟩
    · rintro ⟨met, rest⟩
      exact ⟨initially, (later (here.mpr met)).mpr rest⟩

theorem admits_of_forall (allows : ∀ state, ∀ e ∈ events, ok state e) : Admits step ok state events := by
  induction events generalizing state with
  | nil => trivial
  | cons e events ih =>
    exact ⟨allows state e (by simp), ih fun state e later => allows state e (by simp [later])⟩

theorem along_iff_admits_of_exact (exact : ∀ state e, holds state → (holds (step state e) ↔ meets state e))
    (initially : holds state) : Along step holds state events ↔ Admits step meets state events := by
  have always : Admits step (fun _ _ => True) state events := admits_of_forall fun _ _ _ => trivial
  have keeps : ∀ (state : σ) (e : ε), True → True → True := fun _ _ _ _ => trivial
  exact along_iff_admits keeps (fun state e _ holding _ => exact state e holding) trivial initially always

theorem admits_append {a b : List ε} : Admits step ok state (a ++ b) ↔
      Admits step ok state a ∧ Admits step ok (run step state a) b := by
  induction a generalizing state with
  | nil => simp [Admits]
  | cons e a ih => simp [Admits, ih, and_assoc]

theorem admits_and : Admits step (fun state e => ok state e ∧ o state e) state events ↔
      Admits step ok state events ∧ Admits step o state events := by
  induction events generalizing state with
  | nil => simp [Admits]
  | cons e events ih => simp [Admits, ih, and_and_and_comm]

/-- What an invariant says of an allowed event holds of every event of an admitted run. -/
theorem Admits.imp_of_keeps (keeps : ∀ state e, holds state → ok state e → holds (step state e))
    (tells : ∀ state e, holds state → ok state e → o state e) {state : σ} {events : List ε}
    (initially : holds state) (admits : Admits step ok state events) : Admits step o state events := by
  induction events generalizing state with
  | nil => trivial
  | cons e events ih =>
    exact ⟨tells state e initially admits.1, ih (keeps state e initially admits.1) admits.2⟩

/-! ## Since -/

/-- The run has an event that `begins`, and each event after it is `quiet`. -/
def Since (step : σ → ε → σ) (begins quiet : σ → ε → Prop) (state : σ) (events : List ε) : Prop :=
  ∃ before event after, events = before ++ event :: after ∧ begins (run step state before) event ∧
    Admits step quiet (step (run step state before) event) after

variable {pre quiet : σ → ε → Prop}

theorem not_since_nil (state : σ) : ¬Since step pre quiet state [] := by
  rintro ⟨old, e, after, empty, -⟩
  simp at empty

theorem since_concat {last : ε} : Since step pre quiet state (events ++ [last]) ↔ pre (run step state events) last ∨
        Since step pre quiet state events ∧ quiet (run step state events) last := by
  constructor
  · rintro ⟨old, e, after, split, begun, still⟩
    -- Either the last event is the one that begins, or it is the last of those after it.
    rcases eq_nil_or_concat after with rfl | ⟨after, e', rfl⟩
    · obtain ⟨rfl, ⟨⟩⟩ := append_inj' split rfl
      exact .inl begun
    · rw [concat_eq_append, ← cons_append, ← append_assoc] at split
      obtain ⟨rfl, ⟨⟩⟩ := append_inj' split rfl
      rw [concat_eq_append, admits_append] at still
      refine .inr ⟨⟨old, e, after, rfl, begun, still.1⟩, ?_⟩
      rw [run_append]
      exact still.2.1
  · rintro (begun | ⟨⟨old, e, after, rfl, begun, still⟩, calm⟩)
    · exact ⟨events, last, [], rfl, begun, trivial⟩
    · refine ⟨old, e, after ++ [last], by simp, begun, admits_append.mpr ⟨still, ?_, trivial⟩⟩
      rwa [run_append, run_cons] at calm

/-- A state that says what each event does to a fact knows since when the fact holds. -/
theorem since_iff (tells : σ → Prop) (keeps : ∀ state e, holds state → ok state e → holds (step state e))
    (changes : ∀ state e, holds state → ok state e →
      (tells (step state e) ↔ pre state e ∨ tells state ∧ quiet state e)) (initially : holds state)
    (untold : ¬tells state) (admits : Admits step ok state events) :
    tells (run step state events) ↔ Since step pre quiet state events := by
  -- The last event decides, so the induction takes events off the end.
  induction events using List.reverseRecOn with
  | nil => exact iff_of_false untold (not_since_nil state)
  | append_singleton events last ih =>
    obtain ⟨admits, allows⟩ := admits_append.mp admits
    have hit := (along_of_keeps keeps initially admits).last
    rw [since_concat, ← ih admits, run_append]
    exact changes _ last hit allows.1

end Wbfuwunel.Foundation
