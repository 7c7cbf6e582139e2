import Wbfuwunel.Streams.SubscriberRuns

/-! The end of a session: from `end_connection` on the registry refuses the connection, until `forget_connection` takes
the last mark of it away.

The membership checks of a `Subscribe` read nothing here, however long they wait: only its registration is a step.
-/

set_option autoImplicit false

namespace Wbfuwunel.Streams
open Foundation Registry

namespace Registry

variable {Topic User Queue : Type}

/-! ## Whom a push reaches -/

section Targets

variable {g : Registry Topic User Queue}

theorem isSubscribed_takeTarget (s : Registry Topic User Queue × List (Target Queue)) (c : ConnectionId) :
    (takeTarget s c).1.isSubscribed = s.1.isSubscribed := by
  funext who
  rw [isSubscribed_eq, isSubscribed_eq, (takeTarget_still s c).same.userOf]

variable {t : Target Queue} {s : Registry Topic User Queue × List (Target Queue)}

theorem mem_takeTarget {c : ConnectionId} (taken : t ∈ (takeTarget s c).2) : t ∈ s.2 ∨ s.1.isSubscribed t.connection := by
  unfold takeTarget at taken
  cases hit : s.1.subscribers c with
  | none => exact .inl (by simpa [hit] using taken)
  | some subscriber =>
    simp only [hit, List.mem_append, List.mem_singleton] at taken
    rcases taken with old | rfl
    · exact .inl old
    · exact .inr (by simp [isSubscribed, hit])

theorem mem_takeTarget_foldl (cs : List ConnectionId) (taken : t ∈ (cs.foldl takeTarget s).2) :
    t ∈ s.2 ∨ s.1.isSubscribed t.connection := by
  induction cs generalizing s with
  | nil => exact .inl taken
  | cons c cs ih =>
    rcases ih taken with taken | subscribed
    · exact mem_takeTarget taken
    · rw [isSubscribed_takeTarget] at subscribed
      exact .inr subscribed

theorem isSubscribed_of_mem_takeTargets {topic : Option Topic} {cs : List ConnectionId}
    (taken : t ∈ (g.takeTargets topic cs).2) : g.isSubscribed t.connection := by
  rcases mem_takeTarget_foldl _ taken with none | subscribed
  · cases none
  · exact subscribed

theorem isSubscribed_of_mem_listeners {topic : Topic} {c : ConnectionId} {user : User}
    (listens : (c, user) ∈ g.listeners topic) : g.isSubscribed c := by
  unfold listeners at listens
  cases hit : g.topics.rows topic with
  | none => simp [hit] at listens
  | some cs =>
    simp only [hit, List.mem_filterMap, Option.map_eq_some_iff] at listens
    obtain ⟨_, -, subscriber, got, rfl, -⟩ := listens
    simp [isSubscribed, got]

end Targets

/-! ## The mark -/

variable [DecidableEq Topic] [DecidableEq User] {registry : Registry Topic User Queue} {occupancy : Occupancy}
  {connection : ConnectionId}

theorem ended_subscribe (u : User) (queue : Queue) (id : UInt64) (topics : List Topic) :
    (registry.subscribe occupancy connection u queue id topics).1.ended = registry.ended := by
  by_cases finished : connection ∈ registry.ended
  · rw [subscribe, if_pos finished]
  · exact (subscribe_moves finished).same.ended.trans ended_startOver

theorem mem_ended_step (op : Operation Topic User Queue) : connection ∈ (registry.step occupancy op).ended ↔
      op = .endConnection connection ∨ connection ∈ registry.ended ∧ op ≠ .forgetConnection connection := by
  cases op with
  | subscribe who u queue id topics => simp [step, ended_subscribe]
  | unsubscribe who topics => simp [step, (registry.unsubscribe_moves who topics).same.ended]
  | removeConnection who => simp [step]
  | endConnection who => simp [step, endConnection, eq_comm]
  | forgetConnection who => simp [step, forgetConnection, and_comm, eq_comm]
  | copyTopic source t => simp [step, (registry.copyTopic_moves source t).same.ended]
  | leaveTopicOfUser u topic => simp [step, (registry.leaveTopicOfUser_moves u topic).same.ended]
  | takeTargets topic cs => simp [step, (registry.takeTargets_still topic cs).same.ended]
  | markGap cs => simp [step, (registry.markGap_still cs).same.ended]

/-! ## What the mark means -/

structure Refuses (occupancy : Occupancy) (connection : ConnectionId) (registry : Registry Topic User Queue) : Prop where
  outside : ∀ topic, connection ∉ registry.topics.members topic
  untaken : ∀ topic connections, ∀ target ∈ (registry.takeTargets topic connections).2, target.connection ≠ connection
  unheard : ∀ topic, ∀ listener ∈ registry.listeners topic, listener.1 ≠ connection
  refused : ∀ user queue id topics, registry.subscribe occupancy connection user queue id topics = (registry, none)

structure Untraced (connection : ConnectionId) (registry : Registry Topic User Queue) : Prop where
  topics : ∀ topic, connection ∉ registry.topics.members topic
  subscribers : registry.subscribers connection = none
  byUser : ∀ user, connection ∉ registry.byUser.members user
  ended : connection ∉ registry.ended

theorem Consistent.refuses (ok : registry.Consistent) (finished : connection ∈ registry.ended) :
    registry.Refuses occupancy connection where
  outside topic mem := ok.ended connection finished (ok.listed topic connection mem)
  untaken topic cs t taken eq :=
    ok.ended connection finished (eq ▸ isSubscribed_of_mem_takeTargets taken)
  unheard topic listener listens eq :=
    ok.ended connection finished (eq ▸ isSubscribed_of_mem_listeners listens)
  refused u queue id topics := by rw [Registry.subscribe, if_pos finished]

omit [DecidableEq Topic] in
theorem Consistent.untraced (ok : registry.Consistent) (connection : ConnectionId) :
    (registry.forgetConnection connection).Untraced connection := by
  have after : (registry.forgetConnection connection).Consistent := ok.forgetConnection connection
  have nobody : (registry.forgetConnection connection).userOf connection = none := by
    show (registry.removeConnection connection).userOf connection = none
    rw [userOf_removeConnection, Function.update_self]
  refine ⟨fun t mem => ?_, ?_, fun u ls => ?_, ?_⟩
  · have subscribed := after.listed t connection mem
    simp [isSubscribed_eq, nobody] at subscribed
  · simpa [userOf] using nobody
  · rw [after.byUser_iff, nobody] at ls
    cases ls
  · simp [Registry.forgetConnection]

/-- However the operations interleave: a connection whose session has ended and that is not forgotten since is refused,
and the registry keeps no trace of one that is forgotten. -/
theorem session_teardown (occupancy : Occupancy) (connection : ConnectionId)
    (operations : List (Operation Topic User Queue)) :
    let registry := run (step occupancy) new operations
    (Since (step occupancy) (fun _ op => op = .endConnection connection)
        (fun _ op => op ≠ .forgetConnection connection) new operations →
      registry.Refuses occupancy connection) ∧ (registry.forgetConnection connection).Untraced connection := by
  intro registry
  have always : Admits (step occupancy) (fun _ _ => True) (new : Registry Topic User Queue) operations :=
    admits_of_forall fun _ _ _ => trivial
  have keeps (registry : Registry Topic User Queue) (op : Operation Topic User Queue)
      (ok : registry.Consistent) (_ : True) : (registry.step occupancy op).Consistent :=
    ok.step op
  have ok : registry.Consistent := (along_of_keeps keeps new_consistent always).last
  have marked : connection ∈ registry.ended ↔ _ :=
    since_iff (fun registry => connection ∈ registry.ended) keeps (fun _ op _ _ => mem_ended_step op)
      new_consistent (by simp [new]) always
  exact ⟨fun finished => ok.refuses (marked.mpr finished), ok.untraced connection⟩

/-- A `Subscribe` that was under way when the session ended does not bring the connection back. -/
theorem session_teardown_in_flight : let operations : List (Operation Nat Nat Unit) :=
      [.subscribe 1 10 () 42 [7], .endConnection 1, .subscribe 1 10 () 42 [7, 8], .copyTopic 7 8]
    (run (step .many) new operations).Refuses .many 1 ∧
      ((run (step .many) new operations).forgetConnection 1).Untraced 1 := by
  intro operations
  obtain ⟨refuses, untraced⟩ := session_teardown .many 1 operations
  exact ⟨refuses ⟨[.subscribe 1 10 () 42 [7]], _, _, rfl, rfl, by simp, by simp, trivial⟩, untraced⟩

end Registry

end Wbfuwunel.Streams
