import Mathlib.Data.Multiset.AddSub
import Wbfuwunel.Foundation.Runs

/-! Calls that run at the same time over shared tables.

A call is a value that says how far it has come. It moves one step at a time and finds the tables as the steps of the
others have left them. What the calls have returned so far is kept without an order.
-/

set_option autoImplicit false

namespace Wbfuwunel.Foundation

open List Option

/-- How a request becomes a call, how a call moves, and what else happens to the tables. -/
structure Protocol (σ κ α ι ε : Type) where
  begin : α → σ → σ × κ
  advance : ι → σ → κ → σ × κ
  other : ε → σ → σ

structure Calls (σ κ : Type) where
  shared : σ
  calls : List κ
  deriving DecidableEq

inductive CallEvent (α ι ε : Type) where
  | start (request : α)
  | move (index : Nat) (input : ι)
  | other (event : ε)
  deriving DecidableEq

namespace Calls

section Moves

variable {σ κ α ι ε : Type} (undisturbed : σ → κ → Prop)

/-- A call that moves is undisturbed in the tables it meets. -/
def Moves (state : Calls σ κ) : CallEvent α ι ε → Prop
  | .move index _ => ∀ call ∈ state.calls[index]?, undisturbed state.shared call
  | _ => True

instance decidableMoves [∀ shared call, Decidable (undisturbed shared call)] (state : Calls σ κ) :
    ∀ event : CallEvent α ι ε, Decidable (Moves undisturbed state event)
  | .move index _ => inferInstanceAs (Decidable (∀ call ∈ state.calls[index]?, undisturbed state.shared call))
  | .start _ | .other _ => .isTrue trivial

end Moves

variable {σ κ ρ : Type} (outcome : κ → Option ρ)

/-- What the calls that are through have returned. -/
def outcomes (state : Calls σ κ) : Multiset ρ := state.calls.filterMap outcome

variable {outcome}

theorem mem_outcomes {s : Calls σ κ} {result : ρ} :
    result ∈ s.outcomes outcome ↔ ∃ c ∈ s.calls, outcome c = some result := by
  simp [outcomes]

theorem index_eq_of_nodup {calls : List κ} (distinct : (calls.filterMap outcome).Nodup) {a b : Nat}
    {c o : κ} {result : ρ} (got : calls[a]? = some c) (got' : calls[b]? = some o)
    (returned : outcome c = some result) (returned' : outcome o = some result) : a = b := by
  induction calls generalizing a b with
  | nil => cases got
  | cons head calls ih =>
    have absent {v : κ} {i : Nat} (mem : calls[i]? = some v) (equal : outcome v = some result) :
        outcome head ≠ some result := by
      intro eq
      rw [filterMap_cons_some eq] at distinct
      exact (nodup_cons.mp distinct).1 (mem_filterMap.mpr ⟨v, mem_of_getElem? mem, equal⟩)
    have rest : (calls.filterMap outcome).Nodup :=
      distinct.sublist ((sublist_cons_self head calls).filterMap outcome)
    cases a with
    | zero =>
      obtain rfl := some.inj got
      cases b with
      | zero => rfl
      | succ b => exact absurd returned (absent got' returned')
    | succ a =>
      cases b with
      | zero =>
        obtain rfl := some.inj got'
        exact absurd returned' (absent got returned)
      | succ b => exact congrArg (· + 1) (ih rest got got')

end Calls

theorem filterMap_set_perm {κ ρ : Type} {outcome : κ → Option ρ} {calls : List κ} {i : Nat} {c next : κ}
    (got : calls[i]? = some c) (pending : outcome c = none) :
    ((calls.set i next).filterMap outcome).Perm ((outcome next).toList ++ calls.filterMap outcome) := by
  induction calls generalizing i with
  | nil => cases got
  | cons a calls ih =>
    cases i with
    | zero =>
      obtain rfl := some.inj got
      cases result : outcome next <;> simp [pending, result]
    | succ i =>
      have rest := @ih i got
      cases result : outcome a with
      | none => simpa [result] using rest
      | some v => simpa [result] using (rest.cons v).trans perm_middle.symm

namespace Protocol

variable {σ κ α ι ε ρ : Type} (protocol : Protocol σ κ α ι ε)

def step (state : Calls σ κ) : CallEvent α ι ε → Calls σ κ
  | .start request => ⟨(protocol.begin request state.shared).1, state.calls ++ [(protocol.begin request state.shared).2]⟩
  | .move index input =>
    match state.calls[index]? with
    | none => state
    | some call =>
      ⟨(protocol.advance input state.shared call).1, state.calls.set index (protocol.advance input state.shared call).2⟩
  | .other event => { state with shared := protocol.other event state.shared }

variable {protocol} {s : Calls σ κ} {outcome : κ → Option ρ} {i : Nat} {c : κ} {input : ι}

theorem step_move (got : s.calls[i]? = some c) : protocol.step s (.move i input) =
    ⟨(protocol.advance input s.shared c).1, s.calls.set i (protocol.advance input s.shared c).2⟩ := by
  simp [step, got]

theorem step_move_none (absent : s.calls[i]? = none) : protocol.step s (.move i input) = s := by
  simp [step, absent]

theorem step_move_through (got : s.calls[i]? = some c) (through : protocol.advance input s.shared c = (s.shared, c)) :
    protocol.step s (.move i input) = s := by
  obtain ⟨mem, rfl⟩ := List.getElem?_eq_some_iff.mp got
  rw [step_move got, through, set_getElem_self]

theorem step_move_rule {motive : Calls σ κ → Prop} (still : motive s)
    (moves : ∀ c, s.calls[i]? = some c → protocol.advance input s.shared c ≠ (s.shared, c) →
      motive (protocol.step s (.move i input))) : motive (protocol.step s (.move i input)) := by
  cases got : s.calls[i]? with
  | none => rwa [step_move_none got]
  | some c =>
    by_cases through : protocol.advance input s.shared c = (s.shared, c)
    · rwa [step_move_through got through]
    · exact moves c got through

theorem getElem?_step_of_through (got : s.calls[i]? = some c)
    (through : ∀ input shared, protocol.advance input shared c = (shared, c)) (e : CallEvent α ι ε) :
    (protocol.step s e).calls[i]? = some c := by
  have mem : i < s.calls.length := (List.getElem?_eq_some_iff.mp got).1
  cases e with
  | start q => rw [step, getElem?_append_left mem, got]
  | move other input =>
    by_cases eq : other = i
    · subst eq
      rwa [step_move_through got (through _ _)]
    · cases moved : s.calls[other]? with
      | none => rwa [step_move_none moved]
      | some _ => rwa [step_move moved, getElem?_set_ne eq]
  | other e => exact got

theorem map_getElem?_run {β : Type} {read : κ → β} (keeps : ∀ input shared c, read (protocol.advance input shared c).2 = read c)
    (es : List (CallEvent α ι ε)) {v : β} (got : (s.calls[i]?).map read = some v) :
    ((run protocol.step s es).calls[i]?).map read = some v := by
  induction es generalizing s with
  | nil => exact got
  | cons e es ih =>
    refine ih ?_
    obtain ⟨c, hit, rfl⟩ := map_eq_some_iff.mp got
    have mem : i < s.calls.length := (List.getElem?_eq_some_iff.mp hit).1
    cases e with
    | start q => rw [step, getElem?_append_left mem, got]
    | move other input =>
      cases moved : s.calls[other]? with
      | none => rwa [step_move_none moved]
      | some moving =>
        rw [step_move moved]
        by_cases eq : other = i
        · subst eq
          obtain rfl := some.inj (moved.symm.trans hit)
          rw [getElem?_set_self mem, map_some, keeps]
        · rwa [getElem?_set_ne eq]
    | other e => exact got

end Protocol

/-- `holds` of the tables and of what was returned, and `each` of every call in its place. -/
structure Calls.Sound {σ κ ρ : Type} (outcome : κ → Option ρ) (holds : σ → Multiset ρ → Prop) (each : Nat → σ → κ → Prop)
    (state : Calls σ κ) : Prop where
  shared : holds state.shared (state.outcomes outcome)
  calls : ∀ index call, state.calls[index]? = some call → each index state.shared call

def Calls.Apart {σ κ : Type} (apart : κ → κ → Prop) (state : Calls σ κ) : Prop :=
  ∀ (first second : Nat) (call call' : κ), first ≠ second → state.calls[first]? = some call →
    state.calls[second]? = some call' → apart call call'

namespace Protocol

variable {σ κ α ι ε ρ : Type} {protocol : Protocol σ κ α ι ε}
  {s : Calls σ κ} {outcome : κ → Option ρ} {holds : σ → Multiset ρ → Prop} {each : Nat → σ → κ → Prop}
  {q : α} {i : Nat} {c : κ} {input : ι}

theorem getElem?_start (got : (protocol.step s (.start q)).calls[i]? = some c) :
    s.calls[i]? = some c ∨ i = s.calls.length ∧ c = (protocol.begin q s.shared).2 := by
  rw [step] at got
  rcases lt_or_ge i s.calls.length with old | new
  · rw [getElem?_append_left old] at got
    exact .inl got
  · rw [getElem?_append_right new, getElem?_singleton] at got
    split at got
    · exact .inr ⟨by omega, (some.inj got).symm⟩
    · cases got

theorem getElem?_move {other : Nat} {c' : κ} (got : s.calls[i]? = some c)
    (got' : (protocol.step s (.move i input)).calls[other]? = some c') :
    other = i ∧ c' = (protocol.advance input s.shared c).2 ∨ other ≠ i ∧ s.calls[other]? = some c' := by
  rw [step_move got] at got'
  by_cases eq : other = i
  · subst eq
    have mem : other < s.calls.length := (List.getElem?_eq_some_iff.mp got).1
    rw [getElem?_set_self mem] at got'
    exact .inl ⟨rfl, (some.inj got').symm⟩
  · rw [getElem?_set_ne (Ne.symm eq)] at got'
    exact .inr ⟨eq, got'⟩

theorem outcomes_start (pending : outcome (protocol.begin q s.shared).2 = none) :
    (protocol.step s (.start q)).outcomes outcome = s.outcomes outcome := by
  simp [Calls.outcomes, step, pending]

theorem outcomes_move (got : s.calls[i]? = some c) (pending : outcome c = none) :
    (protocol.step s (.move i input)).outcomes outcome =
      ((outcome (protocol.advance input s.shared c).2).toList : Multiset ρ) + s.outcomes outcome := by
  rw [step_move got]
  exact Multiset.coe_eq_coe.mpr (filterMap_set_perm got pending)

section

variable (h : s.Sound outcome holds each)
include h

theorem sound_start (pending : outcome (protocol.begin q s.shared).2 = none)
    (kept : holds (protocol.begin q s.shared).1 (s.outcomes outcome))
    (own : each s.calls.length (protocol.begin q s.shared).1 (protocol.begin q s.shared).2)
    (others : ∀ i c, s.calls[i]? = some c → each i s.shared c → each i (protocol.begin q s.shared).1 c) :
    (protocol.step s (.start q)).Sound outcome holds each where
  shared := by
    rw [outcomes_start pending]
    exact kept
  calls i c got := by
    rcases getElem?_start got with old | ⟨rfl, rfl⟩
    · exact others i c old (h.calls i c old)
    · exact own

theorem sound_move (got : s.calls[i]? = some c) (pending : outcome c = none)
    (kept : holds (protocol.advance input s.shared c).1
      (((outcome (protocol.advance input s.shared c).2).toList : Multiset ρ) + s.outcomes outcome))
    (own : each i (protocol.advance input s.shared c).1 (protocol.advance input s.shared c).2)
    (others : ∀ o c', o ≠ i → s.calls[o]? = some c' → each o s.shared c' →
      each o (protocol.advance input s.shared c).1 c') :
    (protocol.step s (.move i input)).Sound outcome holds each where
  shared := by
    rw [outcomes_move got pending, step_move got]
    exact kept
  calls o c' got' := by
    have t : (protocol.step s (.move i input)).shared = (protocol.advance input s.shared c).1 := by
      rw [step_move got]
    rw [t]
    rcases getElem?_move got got' with ⟨rfl, rfl⟩ | ⟨ne, got'⟩
    · exact own
    · exact others o c' ne got' (h.calls o c' got')

/-- A move that leaves the tables as they are. -/
theorem sound_pass {next : κ} (got : s.calls[i]? = some c) (pending : outcome c = none)
    (moves : protocol.advance input s.shared c = (s.shared, next))
    (kept : holds s.shared (((outcome next).toList : Multiset ρ) + s.outcomes outcome)) (own : each i s.shared next) :
    (protocol.step s (.move i input)).Sound outcome holds each := by
  refine sound_move h got pending ?_ ?_ fun _ _ _ _ each => ?_
  all_goals rw [moves]
  exacts [kept, own, each]

theorem sound_other {e : ε} (kept : holds (protocol.other e s.shared) (s.outcomes outcome))
    (others : ∀ i c, s.calls[i]? = some c → each i s.shared c → each i (protocol.other e s.shared) c) :
    (protocol.step s (.other e)).Sound outcome holds each :=
  ⟨kept, fun i c got => others i c got (h.calls i c got)⟩

end

section Apart

variable {apart : κ → κ → Prop} (holding : s.Apart apart) (symmetric : ∀ c c', apart c c' → apart c' c)
include holding symmetric

theorem apart_start {q : α} (new : ∀ c ∈ s.calls, apart (protocol.begin q s.shared).2 c) :
    (protocol.step s (.start q)).Apart apart := by
  intro a b c c' ne got got'
  rcases getElem?_start got with old | ⟨rfl, rfl⟩
  · rcases getElem?_start got' with old' | ⟨rfl, rfl⟩
    · exact holding a b c c' ne old old'
    · exact symmetric _ _ (new c (mem_of_getElem? old))
  · rcases getElem?_start got' with old' | ⟨rfl, rfl⟩
    · exact new c' (mem_of_getElem? old')
    · exact absurd rfl ne

theorem apart_move {i : Nat} {c : κ} {input : ι} (got : s.calls[i]? = some c)
    (new : ∀ o c', o ≠ i → s.calls[o]? = some c' → apart (protocol.advance input s.shared c).2 c') :
    (protocol.step s (.move i input)).Apart apart := by
  intro a b c' c'' ne got' got''
  rcases getElem?_move got got' with ⟨rfl, rfl⟩ | ⟨away, old⟩
  · rcases getElem?_move got got'' with ⟨rfl, rfl⟩ | ⟨away', old'⟩
    · exact absurd rfl ne
    · exact new b c'' away' old'
  · rcases getElem?_move got got'' with ⟨rfl, rfl⟩ | ⟨away', old'⟩
    · exact symmetric _ _ (new a c' away old)
    · exact holding a b c' c'' ne old old'

end Apart

end Protocol

end Wbfuwunel.Foundation
