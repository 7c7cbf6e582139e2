import Wbfuwunel.Foundation.Runs
import Wbfuwunel.Streams.Topics

/-! The four maps of a registry agree in every state of every run, and a topic that admits one connection holds the
last that subscribed to it. -/

set_option autoImplicit false

namespace Wbfuwunel.Streams
open Foundation Function Option Registry Index

namespace Registry

variable {Topic User Queue : Type}

/-! ## The four maps agree -/

structure Consistent (registry : Registry Topic User Queue) : Prop where
  listed : ∀ topic, ∀ connection ∈ registry.topics.members topic, registry.isSubscribed connection
  topicsTight : registry.topics.Tight
  byUser_iff : ∀ user connection, connection ∈ registry.byUser.members user ↔ registry.userOf connection = some user
  byUserTight : registry.byUser.Tight
  ended : ∀ connection ∈ registry.ended, ¬registry.isSubscribed connection

theorem new_consistent : (new : Registry Topic User Queue).Consistent where
  listed := by simp [new]
  topicsTight := tight_empty
  byUser_iff := by simp [new, userOf]
  byUserTight := tight_empty
  ended := by simp [new]

theorem isSubscribed_eq (g : Registry Topic User Queue) (c : ConnectionId) : g.isSubscribed c = (g.userOf c).isSome := by
  simp [isSubscribed, userOf]

variable {registry : Registry Topic User Queue}

section

variable (ok : registry.Consistent)
include ok

theorem Consistent.map_listeners (t : Topic) :
    (registry.listeners t).map Prod.fst = (registry.topics.members t).sort := by
  cases hit : registry.topics.rows t with
  | none => simp [listeners, members, hit]
  | some cs =>
    have members : registry.topics.members t = cs := by simp [members, hit]
    have got : ∀ c ∈ cs.sort, ((registry.subscribers c).map fun s => (c, s.user)).map Prod.fst = some c := by
      intro c mem
      have subscribed := ok.listed t c (by simpa [members] using mem)
      obtain ⟨s, hit⟩ := isSome_iff_exists.mp subscribed
      simp [hit]
    simp only [listeners, hit, members, List.map_filterMap]
    rw [List.filterMap_congr got, List.filterMap_some]

theorem Consistent.moves {o : Registry Topic User Queue} {gone come : Topic → ConnectionId → Prop}
    (moves : Moves registry o gone come)
    (subscribed : ∀ t c, come t c → registry.isSubscribed c) : o.Consistent := by
  have eq : o.isSubscribed = registry.isSubscribed := by
    funext c
    rw [isSubscribed_eq, isSubscribed_eq, moves.same.userOf]
  refine ⟨fun t c mem => ?_, moves.tight ok.topicsTight, ?_, ?_, ?_⟩
  · rw [eq]
    rcases (moves.mem_iff t c).mp mem with entered | ⟨mem, -⟩
    · exact subscribed t c entered
    · exact ok.listed t c mem
  · rw [moves.same.byUser, moves.same.userOf]
    exact ok.byUser_iff
  · rw [moves.same.byUser]
    exact ok.byUserTight
  · rw [moves.same.ended, eq]
    exact ok.ended

end

section Identities

variable [DecidableEq User] {registry : Registry Topic User Queue}

theorem userOf_removeConnection (c : ConnectionId) :
    (registry.removeConnection c).userOf = update registry.userOf c none := by
  funext o
  unfold removeConnection
  by_cases eq : o = c
  · subst eq
    cases hit : registry.subscribers o <;> simp [userOf, hit]
  · cases registry.subscribers c <;> simp [userOf, eq]

@[simp] theorem ended_removeConnection (c : ConnectionId) : (registry.removeConnection c).ended = registry.ended := by
  unfold removeConnection
  split <;> rfl

variable (ok : registry.Consistent)
include ok

theorem Consistent.mem_removeConnection {c who : ConnectionId} {t : Topic} :
    who ∈ (registry.removeConnection c).topics.members t ↔ who ∈ registry.topics.members t ∧ who ≠ c := by
  unfold removeConnection
  cases hit : registry.subscribers c with
  | none =>
    -- Without an entry the connection is in no topic, so there is nothing to erase.
    refine (and_iff_left_of_imp ?_).symm
    rintro mem rfl
    simpa [isSubscribed, hit] using ok.listed t who mem
  | some s => simp [and_comm]

theorem Consistent.removeConnection (c : ConnectionId) : (registry.removeConnection c).Consistent where
  listed t who mem := by
    obtain ⟨mem, other⟩ := ok.mem_removeConnection.mp mem
    have subscribed := ok.listed t who mem
    rw [isSubscribed_eq] at subscribed ⊢
    simpa [userOf_removeConnection, other] using subscribed
  topicsTight := by
    unfold Registry.removeConnection
    split
    · exact ok.topicsTight
    · exact tight_eraseAll _ _
  byUser_iff u who := by
    rw [userOf_removeConnection]
    unfold Registry.removeConnection
    cases hit : registry.subscribers c with
    | none =>
      have nobody : registry.userOf c = none := by simp [userOf, hit]
      -- Nothing is removed, and the connection was nobody's before.
      rw [← nobody, update_eq_self]
      exact ok.byUser_iff u who
    | some s =>
      have whose : registry.userOf c = some s.user := by simp [userOf, hit]
      rw [mem_erase, ok.byUser_iff]
      by_cases eq : who = c
      · subst eq
        simp [whose, eq_comm]
      · simp [eq]
  byUserTight := by
    unfold Registry.removeConnection
    split
    · exact ok.byUserTight
    · exact ok.byUserTight.erase _ _
  ended who finished := by
    rw [ended_removeConnection] at finished
    have unsubscribed := ok.ended who finished
    rw [isSubscribed_eq] at unsubscribed ⊢
    by_cases eq : who = c <;> simp_all [userOf_removeConnection]

theorem Consistent.endConnection (c : ConnectionId) : (registry.endConnection c).Consistent := by
  have removed := ok.removeConnection c
  refine ⟨removed.listed, removed.topicsTight, removed.byUser_iff, removed.byUserTight, fun who finished => ?_⟩
  rcases Finset.mem_insert.mp finished with rfl | finished
  · change ¬(registry.removeConnection who).isSubscribed who
    simp [isSubscribed_eq, userOf_removeConnection]
  · exact removed.ended who finished

theorem Consistent.forgetConnection (c : ConnectionId) : (registry.forgetConnection c).Consistent := by
  have removed := ok.removeConnection c
  exact ⟨removed.listed, removed.topicsTight, removed.byUser_iff, removed.byUserTight,
    fun who finished => removed.ended who (Finset.mem_of_mem_erase finished)⟩

variable {c : ConnectionId} {u : User}

theorem Consistent.startOver : (registry.startOver c u).Consistent := by
  unfold Registry.startOver
  split
  · exact ok.removeConnection c
  · exact ok

theorem Consistent.mem_startOver {who : ConnectionId} {t : Topic} : who ∈ (registry.startOver c u).topics.members t ↔
      who ∈ registry.topics.members t ∧ ¬(registry.isAnotherIdentity c u ∧ who = c) := by
  unfold Registry.startOver
  split
  next another =>
    simp [ok.mem_removeConnection, another]
  next another =>
    simp [another]

omit ok in
@[simp] theorem ended_startOver : (registry.startOver c u).ended = registry.ended := by
  unfold startOver
  split <;> simp

omit ok in
theorem userOf_startOver : ∀ owner ∈ (registry.startOver c u).userOf c, owner = u := by
  unfold startOver
  split
  · simp [userOf_removeConnection]
  next another =>
    cases hit : registry.subscribers c with
    | none => simp [userOf, hit]
    | some existing => simpa [userOf, hit, isAnotherIdentity] using another

variable {queue : Queue} {id : UInt64}

omit ok in
theorem userOf_register (owned : ∀ owner ∈ registry.userOf c, owner = u) :
    (registry.register c u queue id).userOf = update registry.userOf c (some u) := by
  funext o
  by_cases eq : o = c
  · subst eq
    cases hit : registry.subscribers o with
    | none => simp [userOf, register, hit, Subscriber.opened]
    | some existing => simpa [userOf, register, hit] using owned
  · simp [userOf, register, eq]

theorem Consistent.register (alive : c ∉ registry.ended) (owned : ∀ owner ∈ registry.userOf c, owner = u) :
    (registry.register c u queue id).Consistent where
  listed t who mem := by
    have subscribed := ok.listed t who mem
    rw [isSubscribed_eq] at subscribed ⊢
    by_cases eq : who = c <;> simp_all [userOf_register owned]
  topicsTight := ok.topicsTight
  byUser_iff o who := by
    rw [userOf_register owned]
    change who ∈ (registry.byUser.add u c).members o ↔ _
    rw [mem_add, ok.byUser_iff]
    by_cases eq : who = c
    · subst eq
      have mine : registry.userOf who = some o → u = o := fun known => (owned o known).symm
      simp only [and_true, update_self, some.injEq]
      exact ⟨fun known => known.elim Eq.symm mine, fun eq => .inl eq.symm⟩
    · simp [eq]
  byUserTight := ok.byUserTight.add u c
  ended who finished := by
    have unsubscribed := ok.ended who finished
    have o : who ≠ c := fun eq => alive (eq ▸ finished)
    rw [isSubscribed_eq] at unsubscribed ⊢
    simpa [userOf_register owned, o] using unsubscribed

theorem Consistent.registered (alive : c ∉ registry.ended) :
    ((registry.startOver c u).register c u queue id).Consistent :=
  ok.startOver.register (by simpa using alive) userOf_startOver

end Identities

section Steps

variable [DecidableEq Topic] [DecidableEq User] {registry : Registry Topic User Queue} {occupancy : Occupancy}
  {connection : ConnectionId} {user : User} {queue : Queue} {id : UInt64} {topics : List Topic}

theorem subscribe_moves (alive : connection ∉ registry.ended) :
    Moves ((registry.startOver connection user).register connection user queue id)
      (registry.subscribe occupancy connection user queue id topics).1
      (fun left who => occupancy = .oneTheLatest ∧ left ∈ topics ∧ who ≠ connection)
      fun entered who => entered ∈ topics ∧ who = connection := by
  rw [subscribe, if_neg alive]
  exact enterTopics_moves occupancy connection topics (_, ⟨[], []⟩)

theorem Consistent.subscribe (ok : registry.Consistent) :
    (registry.subscribe occupancy connection user queue id topics).1.Consistent := by
  by_cases finished : connection ∈ registry.ended
  · rw [Registry.subscribe, if_pos finished]
    exact ok
  · refine (ok.registered finished).moves (subscribe_moves finished) ?_
    rintro t who ⟨-, rfl⟩
    simp [isSubscribed, Registry.register]

theorem Consistent.step (ok : registry.Consistent) (operation : Operation Topic User Queue) :
    (registry.step occupancy operation).Consistent := by
  cases operation with
  | subscribe connection user queue id topics => exact ok.subscribe
  | unsubscribe connection topics => exact ok.moves (registry.unsubscribe_moves connection topics) (by simp)
  | removeConnection connection => exact ok.removeConnection connection
  | endConnection connection => exact ok.endConnection connection
  | forgetConnection connection => exact ok.forgetConnection connection
  | copyTopic source t => exact ok.moves (registry.copyTopic_moves source t) fun _ _ copied => copied.2.2
  | leaveTopicOfUser user topic => exact ok.moves (registry.leaveTopicOfUser_moves user topic) (by simp)
  | takeTargets topic cs => exact ok.moves (registry.takeTargets_still topic cs) (by simp)
  | markGap cs => exact ok.moves (registry.markGap_still cs) (by simp)

theorem userOf_step (operation : Operation Topic User Queue) (who : ConnectionId) :
    (registry.step occupancy operation).userOf who = match operation with
      | .subscribe connection user _ _ _ =>
        if connection ∉ registry.ended ∧ who = connection then some user else registry.userOf who
      | .removeConnection connection | .endConnection connection | .forgetConnection connection =>
        if who = connection then none else registry.userOf who
      | _ => registry.userOf who := by
  cases operation with
  | subscribe connection user queue id topics =>
    by_cases finished : connection ∈ registry.ended
    · simp [step, subscribe, finished]
    · rw [step, (subscribe_moves finished).same.userOf, userOf_register userOf_startOver]
      by_cases eq : who = connection
      · simp [eq, finished]
      · unfold startOver
        split <;> simp [userOf_removeConnection, eq]
  | removeConnection connection | endConnection connection | forgetConnection connection =>
    show (registry.removeConnection connection).userOf who = _
    rw [userOf_removeConnection, update_apply]
  | unsubscribe connection topics => exact congrFun (registry.unsubscribe_moves connection topics).same.userOf who
  | copyTopic source t => exact congrFun (registry.copyTopic_moves source t).same.userOf who
  | leaveTopicOfUser user topic => exact congrFun (registry.leaveTopicOfUser_moves user topic).same.userOf who
  | takeTargets topic cs => exact congrFun (registry.takeTargets_still topic cs).same.userOf who
  | markGap cs => exact congrFun (registry.markGap_still cs).same.userOf who

/-! ## Who is in a topic -/

section Topics

variable (registry) (operation : Operation Topic User Queue) (connection : ConnectionId) (topic : Topic)

def Subscribes : Prop :=
  match operation with
  | .subscribe who _ _ _ topics => connection = who ∧ who ∉ registry.ended ∧ topic ∈ topics
  | _ => False

def Leaves : Prop :=
  match operation with
  | .subscribe who user _ _ _ => connection = who ∧ who ∉ registry.ended ∧ registry.isAnotherIdentity who user
  | .unsubscribe who topics => connection = who ∧ topic ∈ topics
  | .removeConnection who | .endConnection who | .forgetConnection who => connection = who
  | .leaveTopicOfUser user left => topic = left ∧ registry.userOf connection = some user
  | .copyTopic .. | .takeTargets .. | .markGap .. => False

def Copies : Prop :=
  match operation with
  | .copyTopic source target => topic = target ∧ connection ∈ registry.topics.members source
  | _ => False

end Topics

/-- The operation leaves the connection where it is, and no `Subscribe` names the topic. -/
def Undisturbed (connection : ConnectionId) (topic : Topic) (registry : Registry Topic User Queue)
    (operation : Operation Topic User Queue) : Prop :=
  ¬registry.Leaves operation connection topic ∧ ∀ other, ¬registry.Subscribes operation other topic

variable {who : ConnectionId} {topic : Topic} {operation : Operation Topic User Queue}

theorem Consistent.mem_subscribe (ok : registry.Consistent) (alive : connection ∉ registry.ended) :
    who ∈ (registry.subscribe occupancy connection user queue id topics).1.topics.members topic ↔
      topic ∈ topics ∧ who = connection ∨
        (who ∈ registry.topics.members topic ∧ ¬(registry.isAnotherIdentity connection user ∧ who = connection)) ∧
          ¬(occupancy = .oneTheLatest ∧ topic ∈ topics ∧ who ≠ connection) := by
  rw [(subscribe_moves alive).mem_iff, ← ok.mem_startOver]
  rfl

theorem Consistent.mem_step (ok : registry.Consistent) (operation : Operation Topic User Queue) :
    who ∈ (registry.step occupancy operation).topics.members topic ↔
      registry.Subscribes operation who topic ∨ registry.Copies operation who topic ∨
        who ∈ registry.topics.members topic ∧ ¬registry.Leaves operation who topic ∧
          ¬(occupancy = .oneTheLatest ∧ ∃ o, registry.Subscribes operation o topic) := by
  cases operation with
  | subscribe connection user queue id topics =>
    by_cases finished : connection ∈ registry.ended
    · simp [Registry.step, Registry.subscribe, finished, Subscribes, Copies, Leaves]
    · simp only [Registry.step, ok.mem_subscribe finished, Subscribes, Leaves, exists_eq_left]
      tauto
  | unsubscribe connection topics =>
    simp [Registry.step, (registry.unsubscribe_moves connection topics).mem_iff, Subscribes, Copies, Leaves, and_comm]
  | removeConnection connection =>
    simp [Registry.step, ok.mem_removeConnection, Subscribes, Copies, Leaves]
  | endConnection connection =>
    simp [Registry.step, Registry.endConnection, ok.mem_removeConnection, Subscribes, Copies, Leaves]
  | forgetConnection connection =>
    simp [Registry.step, Registry.forgetConnection, ok.mem_removeConnection, Subscribes, Copies, Leaves]
  | copyTopic source t =>
    -- Who is in a topic has an entry, so the copy leaves nobody behind.
    have subscribed := ok.listed source who
    simp only [Registry.step, (registry.copyTopic_moves source t).mem_iff, Copies]
    tauto
  | leaveTopicOfUser user left =>
    simp [Registry.step, (registry.leaveTopicOfUser_moves user left).mem_iff, ok.byUser_iff, Subscribes, Copies, Leaves]
  | takeTargets topic cs =>
    simp [Registry.step, (registry.takeTargets_still topic cs).mem_iff, Subscribes, Copies, Leaves]
  | markGap cs =>
    simp [Registry.step, (registry.markGap_still cs).mem_iff, Subscribes, Copies, Leaves]

theorem Consistent.mem_step_many (ok : registry.Consistent) (operation : Operation Topic User Queue) :
    who ∈ (registry.step .many operation).topics.members topic ↔
      registry.Subscribes operation who topic ∨ registry.Copies operation who topic ∨
        who ∈ registry.topics.members topic ∧ ¬registry.Leaves operation who topic := by
  simp [ok.mem_step]

theorem Subscribes.userOf (subscribes : registry.Subscribes operation who topic) : ∃ user queue id topics,
      operation = .subscribe who user queue id topics ∧ topic ∈ topics ∧
        (registry.step occupancy operation).userOf who = some user := by
  cases operation with
  | subscribe connection user queue id topics =>
    obtain ⟨rfl, alive, named⟩ := subscribes
    refine ⟨user, queue, id, topics, rfl, named, ?_⟩
    simp [userOf_step, alive]
  | _ => exact subscribes.elim

omit [DecidableEq Topic] [DecidableEq User] in
theorem Copies.source {operation : Operation Topic User Queue} {who : ConnectionId} {topic : Topic}
    (copies : registry.Copies operation who topic) : ∃ source,
      operation = .copyTopic source topic ∧ who ∈ registry.topics.members source := by
  cases operation with
  | copyTopic source t =>
    obtain ⟨rfl, mem⟩ := copies
    exact ⟨source, rfl, mem⟩
  | _ => exact copies.elim

theorem Consistent.userOf_of_stays (ok : registry.Consistent) (mem : who ∈ registry.topics.members topic)
    (stays : ¬registry.Leaves operation who topic) :
    (registry.step occupancy operation).userOf who = registry.userOf who := by
  rw [userOf_step]
  cases operation with
  | subscribe connection user queue id topics =>
    simp only
    split_ifs with entered
    · -- it subscribes again, as the same user
      obtain ⟨alive, rfl⟩ := entered
      obtain ⟨s, found⟩ := isSome_iff_exists.mp (ok.listed topic who mem)
      have eq : s.user = user := by
        by_contra o
        exact stays ⟨rfl, alive, by simp [isAnotherIdentity, found, o]⟩
      simp [userOf, found, eq]
    · rfl
  | removeConnection connection | endConnection connection | forgetConnection connection => exact if_neg stays
  | unsubscribe | copyTopic | leaveTopicOfUser | takeTargets | markGap => rfl

omit [DecidableEq Topic] [DecidableEq User] in
theorem subscribes_unique {operation : Operation Topic User Queue} {a b : ConnectionId} {topic : Topic}
    (subscribes : registry.Subscribes operation a topic) (also : registry.Subscribes operation b topic) :
    a = b := by
  cases operation with
  | subscribe => exact subscribes.1.trans also.1.symm
  | _ => exact subscribes.elim

theorem Consistent.mem_step_latest (ok : registry.Consistent) (uncopied : ¬operation.isCopy) :
    who ∈ (registry.step .oneTheLatest operation).topics.members topic ↔ registry.Subscribes operation who topic ∨
        who ∈ registry.topics.members topic ∧ Undisturbed who topic registry operation := by
  have alone : ¬registry.Copies operation who topic := by
    cases operation <;> simp_all [Copies, Operation.isCopy]
  simp [ok.mem_step, alone, Undisturbed]

def Single (registry : Registry Topic User Queue) : Prop := ∀ topic, (registry.topics.members topic).card ≤ 1

theorem Single.step (single : registry.Single) (ok : registry.Consistent) (uncopied : ¬operation.isCopy) :
    (registry.step .oneTheLatest operation).Single := by
  intro topic
  refine Finset.card_le_one.mpr fun a mem b also => ?_
  rcases (ok.mem_step_latest uncopied).mp mem with subscribes | ⟨mem, calm⟩ <;>
    rcases (ok.mem_step_latest uncopied).mp also with subscribes' | ⟨also, calm'⟩
  · exact subscribes_unique subscribes subscribes'
  -- One of the two subscribed just now, which disturbs the other.
  · exact absurd subscribes (calm'.2 a)
  · exact absurd subscribes' (calm.2 b)
  · exact Finset.card_le_one.mp (single topic) a mem b also

def LastSubscribed (operations : List (Operation Topic User Queue)) (topic : Topic) (connection : ConnectionId) : Prop :=
  Since (step .oneTheLatest) (fun registry operation => registry.Subscribes operation connection topic)
    (Undisturbed connection topic) new operations

theorem registry_consistent (occupancy : Occupancy) (operations : List (Operation Topic User Queue)) :
    (run (step occupancy) new operations : Registry Topic User Queue).Consistent ∧
      (occupancy = .oneTheLatest → (∀ operation ∈ operations, ¬operation.isCopy) → ∀ topic,
        ((run (step occupancy) new operations).topics.members topic).card ≤ 1 ∧
          ∀ connection, connection ∈ (run (step occupancy) new operations).topics.members topic ↔
            LastSubscribed operations topic connection) := by
  constructor
  · have always : Admits (step occupancy) (fun _ _ => True) (new : Registry Topic User Queue) operations :=
      admits_of_forall fun _ _ _ => trivial
    exact (along_of_keeps (fun _ operation ok _ => ok.step operation) new_consistent always).last
  · rintro rfl uncopied topic
    have admits : Admits (step .oneTheLatest) (fun _ operation => ¬operation.isCopy)
        (new : Registry Topic User Queue) operations := admits_of_forall fun _ => uncopied
    have keeps (registry : Registry Topic User Queue) (operation : Operation Topic User Queue)
        (h : registry.Consistent ∧ registry.Single) (uncopied : ¬operation.isCopy) :
        (registry.step .oneTheLatest operation).Consistent ∧ (registry.step .oneTheLatest operation).Single :=
      ⟨h.1.step operation, h.2.step h.1 uncopied⟩
    have initially : (new : Registry Topic User Queue).Consistent ∧ (new : Registry Topic User Queue).Single :=
      ⟨new_consistent, fun topic => by simp [new]⟩
    refine ⟨(along_of_keeps keeps initially admits).last.2 topic, fun connection => ?_⟩
    -- By induction on the run: each operation says who is in the topic after it.
    exact since_iff (fun registry => connection ∈ registry.topics.members topic) keeps
      (fun _ _ h uncopied => h.1.mem_step_latest uncopied) initially (by simp [new]) admits

end Steps

end Registry

end Wbfuwunel.Streams
