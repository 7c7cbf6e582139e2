import Wbfuwunel.Streams.Subscribers

/-! What the operations of a registry that leave its subscribers their users do to its topics. -/

set_option autoImplicit false

namespace Wbfuwunel.Streams
open Foundation Index

namespace Registry

variable {Topic User Queue : Type}

variable (registry other : Registry Topic User Queue)

structure SameIdentities : Prop where
  userOf : other.userOf = registry.userOf
  byUser : other.byUser = registry.byUser
  ended : other.ended = registry.ended

/-- Nothing but who is in which topic has changed: `come` are the entries made, `gone` the others that went. -/
structure Moves (gone come : Topic → ConnectionId → Prop) : Prop where
  same : SameIdentities registry other
  tight : registry.topics.Tight → other.topics.Tight
  mem_iff : ∀ topic connection, connection ∈ other.topics.members topic ↔
    come topic connection ∨ connection ∈ registry.topics.members topic ∧ ¬gone topic connection

namespace Moves

variable {g o third : Registry Topic User Queue} {gone come gone' come' : Topic → ConnectionId → Prop}

theorem still (eq : SameIdentities g o) (topics : o.topics = g.topics) :
    Moves g o (fun _ _ => False) (fun _ _ => False) :=
  ⟨eq, by rw [topics]; exact id, by simp [topics]⟩

theorem trans (a : Moves g o gone come) (b : Moves o third gone' come') (apart : ∀ t conn, come t conn → ¬gone' t conn) :
    Moves g third (fun t conn => gone t conn ∨ gone' t conn) (fun t conn => come t conn ∨ come' t conn) where
  same := ⟨b.same.userOf.trans a.same.userOf, b.same.byUser.trans a.same.byUser, b.same.ended.trans a.same.ended⟩
  tight := b.tight ∘ a.tight
  mem_iff t conn := by
    rw [b.mem_iff, a.mem_iff]
    have := apart t conn
    tauto

theorem congr (moves : Moves g o gone come) (goneSame : ∀ t conn, gone t conn ↔ gone' t conn)
    (comeSame : ∀ t conn, come t conn ↔ come' t conn) :
    Moves g o gone' come' :=
  ⟨moves.same, moves.tight, fun t conn => by rw [moves.mem_iff, goneSame, comeSame]⟩

theorem foldl {σ α : Type} (view : σ → Registry Topic User Queue) {turn : σ → α → σ}
    {gone come : α → Topic → ConnectionId → Prop}
    (each : ∀ s x, Moves (view s) (view (turn s x)) (gone x) (come x))
    (apart : ∀ a b t conn, come a t conn → ¬gone b t conn)
    (list : List α) (s : σ) :
    Moves (view s) (view (list.foldl turn s)) (fun t conn => ∃ x ∈ list, gone x t conn)
      (fun t conn => ∃ x ∈ list, come x t conn) := by
  induction list generalizing s with
  | nil => exact (still ⟨rfl, rfl, rfl⟩ rfl).congr (by simp) (by simp)
  | cons x list ih =>
    refine ((each s x).trans (ih (turn s x)) ?_).congr (by simp) (by simp)
    rintro t conn entered ⟨later, -, left⟩
    exact apart x later t conn entered left

end Moves

open Moves

variable (registry : Registry Topic User Queue)

def Still (other : Registry Topic User Queue) : Prop := Moves registry other (fun _ _ => False) fun _ _ => False

theorem modify_still (conn : ConnectionId) {change : Subscriber User Queue → Subscriber User Queue}
    (keeps : ∀ existing, (change existing).user = existing.user) :
    Still registry (registry.modify conn change) := by
  refine .still ⟨?_, rfl, rfl⟩ rfl
  funext o
  have users : Subscriber.user ∘ change = Subscriber.user := funext keeps
  by_cases eq : o = conn
  · simp [userOf, modify, eq, users]
  · simp [userOf, modify, eq]

theorem takeTarget_still (s : Registry Topic User Queue × List (Target Queue)) (conn : ConnectionId) :
    Still s.1 (takeTarget s conn).1 := by
  unfold takeTarget
  split
  · exact .still ⟨rfl, rfl, rfl⟩ rfl
  · exact s.1.modify_still conn fun _ => rfl

theorem takeTargets_still (t : Option Topic) (cs : List ConnectionId) : Still registry (registry.takeTargets t cs).1 :=
  (foldl Prod.fst takeTarget_still (by simp) _ (registry, [])).congr (by simp) (by simp)

theorem markGap_still (cs : List ConnectionId) : Still registry (registry.markGap cs) := by
  have each (registry : Registry Topic User Queue) (conn : ConnectionId) :
      Still registry (registry.modify conn fun existing => { existing with gap := true }) :=
    registry.modify_still conn fun _ => rfl
  exact (foldl id each (by simp) cs registry).congr (by simp) (by simp)

section Topics

variable [DecidableEq Topic] (registry : Registry Topic User Queue)

theorem leaveTopic_moves (conn : ConnectionId) (t : Topic) :
    Moves registry (registry.leaveTopic conn t) (fun left who => left = t ∧ who = conn) fun _ _ => False where
  same := ⟨rfl, rfl, rfl⟩
  tight tight := tight.erase t conn
  mem_iff _ _ := by
    rw [leaveTopic, mem_erase]
    simp

theorem unsubscribe_moves (conn : ConnectionId) (topics : List Topic) :
    Moves registry (registry.unsubscribe conn topics) (fun left who => left ∈ topics ∧ who = conn) fun _ _ => False := by
  have each (registry : Registry Topic User Queue) (t : Topic) := registry.leaveTopic_moves conn t
  exact (foldl id each (by simp) topics registry).congr (by simp) (by simp)

theorem displace_moves (t : Topic) (s : Registry Topic User Queue × List (Displaced Queue)) (loser : ConnectionId) :
    Moves s.1 (displace t s loser).1 (fun left who => left = t ∧ who = loser) fun _ _ => False := by
  unfold displace
  split
  · exact s.1.leaveTopic_moves loser t
  · have advanced : Still s.1 (s.1.modify loser Subscriber.advance) := s.1.modify_still loser fun _ => rfl
    refine (advanced.trans (leaveTopic_moves _ loser t) (by simp)).congr ?_ ?_ <;> simp

theorem takeTopicOver_moves (newcomer : ConnectionId) (t : Topic) :
    Moves registry (registry.takeTopicOver newcomer t).1 (fun left who => left = t ∧ who ≠ newcomer)
      fun _ _ => False := by
  unfold takeTopicOver
  cases hit : registry.topics.rows t with
  | none =>
    refine ⟨⟨rfl, rfl, rfl⟩, id, fun left who => ?_⟩
    -- A topic without a row has nobody to turn out.
    have nobody : registry.topics.members t = ∅ := by simp [members, hit]
    simp only [false_or, iff_self_and]
    rintro mem ⟨rfl, -⟩
    simp [nobody] at mem
  | some holders =>
    have members : registry.topics.members t = holders := by simp [members, hit]
    have each (s : Registry Topic User Queue × List (Displaced Queue)) (loser : ConnectionId) :=
      displace_moves t s loser
    have losers := foldl Prod.fst each (by simp) (holders.sort.filter (· ≠ newcomer)) (registry, [])
    refine ⟨losers.same, losers.tight, fun left who => ?_⟩
    rw [losers.mem_iff]
    simp only [List.mem_filter, Finset.mem_sort, and_false, exists_false, false_or]
    -- The holders read before the loop are the members of the topic, so nobody else is left in it.
    refine and_congr_right fun mem => not_congr ?_
    constructor
    · rintro ⟨loser, ⟨-, o⟩, rfl, rfl⟩
      exact ⟨rfl, by simpa using o⟩
    · rintro ⟨rfl, o⟩
      exact ⟨who, ⟨members ▸ mem, by simpa using o⟩, rfl, rfl⟩

variable (occupancy : Occupancy)

theorem makeRoom_moves (registry : Registry Topic User Queue) (newcomer : ConnectionId) (t : Topic) :
    Moves registry (makeRoom occupancy registry newcomer t).1
      (fun left who => occupancy = .oneTheLatest ∧ left = t ∧ who ≠ newcomer) fun _ _ => False := by
  cases occupancy with
  | many => exact (still ⟨rfl, rfl, rfl⟩ rfl).congr (by simp) (by simp)
  | oneTheLatest => exact (registry.takeTopicOver_moves newcomer t).congr (by simp) (by simp)

theorem addTopic_moves (conn : ConnectionId) (t : Topic) :
    Moves registry { registry with topics := registry.topics.add t conn } (fun _ _ => False)
      fun entered who => entered = t ∧ who = conn where
  same := ⟨rfl, rfl, rfl⟩
  tight tight := tight.add t conn
  mem_iff _ _ := by
    rw [mem_add]
    simp

theorem enterTopic_moves (conn : ConnectionId) (s : Registry Topic User Queue × Entered Topic Queue)
    (t : Topic) : Moves s.1 (enterTopic occupancy conn s t).1
      (fun left who => occupancy = .oneTheLatest ∧ left = t ∧ who ≠ conn)
      fun entered who => entered = t ∧ who = conn := by
  refine ((makeRoom_moves occupancy s.1 conn t).trans (addTopic_moves _ conn t) ?_).congr ?_ ?_
    <;> simp

theorem enterTopics_moves (conn : ConnectionId) (topics : List Topic)
    (s : Registry Topic User Queue × Entered Topic Queue) :
    Moves s.1 (topics.foldl (enterTopic occupancy conn) s).1
      (fun left who => occupancy = .oneTheLatest ∧ left ∈ topics ∧ who ≠ conn)
      fun entered who => entered ∈ topics ∧ who = conn := by
  refine (foldl Prod.fst (enterTopic_moves occupancy conn) ?_ topics s).congr ?_ ?_
  · rintro _ _ _ _ ⟨-, rfl⟩ ⟨-, -, o⟩
    exact o rfl
  · intro left who
    constructor
    · rintro ⟨t, mem, latest, rfl, o⟩
      exact ⟨latest, mem, o⟩
    · rintro ⟨latest, mem, o⟩
      exact ⟨left, mem, latest, rfl, o⟩
  · simp

theorem copyTopic_moves (source t : Topic) :
    Moves registry (registry.copyTopic source t) (fun _ _ => False) fun entered who =>
      entered = t ∧ who ∈ registry.topics.members source ∧ registry.isSubscribed who := by
  unfold copyTopic
  cases hit : registry.topics.rows source with
  | none => exact (still ⟨rfl, rfl, rfl⟩ rfl).congr (by simp) (by simp [members, hit])
  | some cs =>
    have each (topics : Index Topic ConnectionId) (conn : ConnectionId) :=
      addTopic_moves { registry with topics } conn t
    have movers := foldl (fun topics => { registry with topics }) each (by simp)
      (cs.sort.filter registry.isSubscribed) registry.topics
    exact movers.congr (by simp) (by simp [members, hit, and_comm])

theorem leaveTopicOfUser_moves [DecidableEq User] (u : User) (t : Topic) : Moves registry (registry.leaveTopicOfUser u t)
      (fun left who => left = t ∧ who ∈ registry.byUser.members u) fun _ _ => False := by
  unfold leaveTopicOfUser
  cases hit : registry.byUser.rows u with
  | none => exact (still ⟨rfl, rfl, rfl⟩ rfl).congr (by simp [members, hit]) (by simp)
  | some cs =>
    have each (registry : Registry Topic User Queue) (conn : ConnectionId) :=
      registry.leaveTopic_moves conn t
    refine (foldl id each (by simp) cs.sort registry).congr ?_ ?_ <;>
      simp [members, hit, and_comm]

end Topics

end Registry

end Wbfuwunel.Streams
