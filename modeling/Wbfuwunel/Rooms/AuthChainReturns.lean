import Mathlib.Data.Finset.Union
import Wbfuwunel.Foundation.Positions
import Wbfuwunel.Rooms.AuthChain

/-! A call for an auth chain returns.

Every action that does something makes the cost of the call smaller. What a walk can still meet is bounded by what the stored
events list, so the actions of one call come to an end when nothing more is stored meanwhile.
-/

set_option autoImplicit false

namespace Wbfuwunel.Rooms.AuthChain

open Foundation List Function Fetch

def listedEvents (events : Events) (stored : Finset EventId) : Finset EventId :=
  stored.biUnion fun event => (((events.pdu event).map AuthPdu.authEvents).getD []).toFinset

theorem stored_getOrCreateShorteventid (t : Tables) (e : EventId) (n : ShortEventId) :
    (t.getOrCreateShorteventid e n).1.stored = t.stored := by
  rw [Tables.getOrCreateShorteventid]
  split <;> rfl

def Fetch.listed (fetch : Fetch) : List EventId :=
  match fetch.result with
  | some (.ok authEvents) => authEvents
  | _ => []

def Fetch.cost (fetch : Fetch) : Nat := if fetch.result.isSome then 1 else 2

namespace Walk

/-- What the walk may still meet. -/
def ahead (events : Events) (stored : Finset EventId) (walk : Walk) : Finset EventId :=
  (listedEvents events stored ∪ (walk.todo.flatMap listed).toFinset) \ walk.seen.toFinset

def cost (events : Events) (stored : Finset EventId) (walk : Walk) : Nat :=
  4 * (walk.ahead events stored).card + (walk.todo.map Fetch.cost).sum + walk.found.length

variable {es : Events} {t : Tables} {r : RoomId} {walk : Walk} {e : EventId} {position : Nat}

theorem listed_of_ok {unreadable : GetError} {authEvents : List EventId}
    (ok : getEventAuthEventIds es t r e unreadable = .ok authEvents) :
    authEvents.toFinset ⊆ listedEvents es t.stored := by
  obtain ⟨got, stands⟩ := getEventAuthEventIds_ok ok
  exact fun o mem => Finset.mem_biUnion.mpr ⟨e, got, by simpa [stands] using mem⟩

theorem cost_read (wait : walk.todo[position]? = some ⟨e, none⟩) (unreadable : GetError) :
    cost es t.stored (walk.step es r t (.read position unreadable)).2 < walk.cost es t.stored := by
  obtain ⟨old, after, whole, set, -⟩ := split_of_getElem? wait
  have fewer : ahead es t.stored (walk.step es r t (.read position unreadable)).2 ⊆ walk.ahead es t.stored := by
    refine Finset.sdiff_subset_sdiff ?_ (by simp [step, wait])
    intro o mem
    simp only [step, wait, set, flatMap_append, flatMap_cons, toFinset_append, Finset.mem_union] at mem
    simp only [whole, flatMap_append, flatMap_cons, toFinset_append, Finset.mem_union]
    rcases mem with stored | a | this | rest
    · exact .inl stored
    · exact .inr (.inl a)
    · cases read : getEventAuthEventIds es t r e unreadable with
      | error error => simp [listed, read] at this
      | ok authEvents => exact .inl (listed_of_ok read (by simpa [listed, read] using this))
    · exact .inr (.inr (.inr rest))
  have card := Finset.card_le_card fewer
  have todo : ((walk.step es r t (.read position unreadable)).2.todo.map Fetch.cost).sum <
      (walk.todo.map Fetch.cost).sum := by
    simp only [step, wait]
    exact sum_map_set_lt wait (by simp [Fetch.cost])
  have got : (walk.step es r t (.read position unreadable)).2.found = walk.found := by simp [step, wait]
  rw [cost, cost, got]
  omega

theorem cost_eval {result : Except GetError (List EventId)} (arrived : walk.todo[position]? = some ⟨e, some result⟩) :
    cost es t.stored (walk.step es r t (.eval position)).2 < walk.cost es t.stored := by
  obtain ⟨old, after, whole, -, erased⟩ := split_of_getElem? arrived
  simp only [step, arrived, erased]
  have shorter : ((old ++ after).map Fetch.cost).sum < (walk.todo.map Fetch.cost).sum := by
    simp [whole, Fetch.cost]
  have fewer : ahead es t.stored { walk with todo := old ++ after } ⊆ walk.ahead es t.stored := by
    refine Finset.sdiff_subset_sdiff (Finset.union_subset_union_right ?_) (Finset.Subset.refl _)
    simp only [whole, flatMap_append, flatMap_cons, toFinset_append]
    grind
  have card := Finset.card_le_card fewer
  match result with
  | .error .notFound =>
    simp only [evaluated, cost, ahead] at card ⊢
    omega
  | .error .other =>
    have none : ahead es t.stored { walk with complete := false, todo := [] } ⊆ walk.ahead es t.stored := by
      refine Finset.sdiff_subset_sdiff (Finset.union_subset_union_right ?_) (Finset.Subset.refl _)
      simp
    have card := Finset.card_le_card none
    simp only [evaluated, cost, map_nil, sum_nil] at card ⊢
    omega
  | .ok authEvents =>
    obtain ⟨fresh, eq, distinct, members⟩ := foldl_see authEvents { walk with todo := old ++ after }
    have later : ahead es t.stored (authEvents.foldl see { walk with todo := old ++ after }) =
        ahead es t.stored { walk with todo := old ++ after } \ fresh.toFinset := by
      rw [eq]
      ext o
      simp only [ahead, flatMap_append, flatMap_map, toFinset_append, Finset.mem_sdiff, Finset.mem_union,
        mem_toFinset, mem_reverse]
      have nothing : fresh.flatMap (fun o => listed ⟨o, none⟩) = [] := by simp [listed]
      simp only [nothing]
      tauto
    have away : fresh.toFinset ⊆ walk.ahead es t.stored := by
      intro o new
      obtain ⟨ls, unseen⟩ := (members o).mp (by simpa using new)
      simp only [ahead, whole, Finset.mem_sdiff, Finset.mem_union, mem_toFinset, mem_flatMap]
      exact ⟨.inr ⟨⟨e, some (.ok authEvents)⟩, by simp, ls⟩, unseen⟩
    have card : (ahead es t.stored (authEvents.foldl see { walk with todo := old ++ after })).card + fresh.length ≤
        (walk.ahead es t.stored).card := by
      rw [later, ← toFinset_card_of_nodup distinct, ← Finset.card_union_of_disjoint Finset.sdiff_disjoint]
      exact Finset.card_le_card (Finset.union_subset (Finset.sdiff_subset.trans fewer) away)
    have costs : (fresh.map fun o => Fetch.cost ⟨o, none⟩).sum = 2 * fresh.length := by
      simp [Fetch.cost, Nat.mul_comm]
    rw [evaluated, cost, cost]
    rw [eq] at card ⊢
    simp only [map_append, map_map, sum_append, length_append, comp_def] at card shorter ⊢
    omega

theorem cost_number (wait : walk.found[position]? = some e) (n : ShortEventId) :
    cost es t.stored (walk.step es r t (.number position n)).2 < walk.cost es t.stored := by
  have shorter := List.length_eraseIdx_add_one (List.getElem?_eq_some_iff.mp wait).1
  simp only [step, wait, cost, ahead]
  omega

theorem exists_step (more : walk.todo ≠ [] ∨ walk.found ≠ []) (n : ShortEventId) : ∃ action : WalkAction,
    (∀ drawn ∈ action.count, drawn = n) ∧ cost es t.stored (walk.step es r t action).2 < walk.cost es t.stored := by
  rcases more with more | more
  · obtain ⟨⟨e, result⟩, rest, stands⟩ := exists_cons_of_ne_nil more
    have a : walk.todo[0]? = some ⟨e, result⟩ := by simp [stands]
    cases result with
    | none => exact ⟨.read 0 .notFound, by simp [WalkAction.count], cost_read a .notFound⟩
    | some result => exact ⟨.eval 0, by simp [WalkAction.count], cost_eval a⟩
  · obtain ⟨e, rest, stands⟩ := exists_cons_of_ne_nil more
    have a : walk.found[0]? = some e := by simp [stands]
    exact ⟨.number 0 n, by simp [WalkAction.count], cost_number a n⟩

@[simp] theorem stored_step (action : WalkAction) : (walk.step es r t action).1.stored = t.stored := by
  cases action <;> unfold step <;> dsimp only <;> split <;> first | rfl | exact stored_getOrCreateShorteventid ..

theorem cost_start (e : EventId) : cost es t.stored (start es r e) ≤ 4 * (listedEvents es t.stored).card + 2 := by
  have fewer : ahead es t.stored (start es r e) ⊆ listedEvents es t.stored := by
    refine Finset.sdiff_subset.trans ?_
    simp [start, Fetch.listed]
  have card := Finset.card_le_card fewer
  simp only [cost, start, map_cons, map_nil, sum_cons, sum_nil, Fetch.cost] at card ⊢
  simp only [Option.isSome_none, Bool.false_eq_true, if_false, length_nil]
  omega

end Walk

def buildCost (events : Events) (stored : Finset EventId) : Nat := 4 * (listedEvents events stored).card + 4

namespace Building

def cost (events : Events) (stored : Finset EventId) : Building → Nat
  | asking => buildCost events stored
  | walking walk => walk.cost events stored + 1
  | built .. => 0

variable {es : Events} {t : Tables} {r : RoomId} {building : Building}

theorem exists_step (more : building.isBuilt = false) (starting : Starting) (n : ShortEventId) :
    ∃ action : BuildAction, (∀ drawn ∈ action.count, drawn = n) ∧
      cost es t.stored (building.step es r t starting action).2 < building.cost es t.stored := by
  cases building with
  | asking =>
    refine ⟨.lookup, by simp [BuildAction.count], ?_⟩
    unfold step
    dsimp only
    split
    · simp [cost, buildCost]
    · have start := @Walk.cost_start es t r starting.2
      simp only [cost, buildCost]
      omega
  | walking walk =>
    by_cases through : walk.todo = [] ∧ walk.found = []
    · refine ⟨.finish, by simp [BuildAction.count], ?_⟩
      simp [step, cost, through]
    · obtain ⟨action, drawn, less⟩ := @Walk.exists_step es t r walk (by tauto) n
      exact ⟨.walk action, drawn, Nat.add_lt_add_right less 1⟩
  | built chain complete => cases more

@[simp] theorem stored_step (starting : Starting) (action : BuildAction) :
    (building.step es r t starting action).1.stored = t.stored := by
  cases action <;> unfold step <;> dsimp only <;> repeat' (first | rfl | exact Walk.stored_step _ | split)

end Building

namespace Chunk

def cost (events : Events) (stored : Finset EventId) (chunk : Chunk) : Nat :=
  match chunk.stage with
  | .asking => chunk.starting.length * buildCost events stored + 2
  | .building builders => (builders.map fun builder => builder.2.cost events stored).sum + 1
  | .done _ => 0

variable {es : Events} {t : Tables} {r : RoomId} {chunk : Chunk}

theorem exists_step (more : chunk.isDone = false) (n : ShortEventId) :
    ∃ action : ChunkAction, (∀ drawn ∈ action.count, drawn = n) ∧
      cost es t.stored (chunk.step es r t action).2 < chunk.cost es t.stored := by
  obtain ⟨starting, stage⟩ := chunk
  cases stage with
  | asking =>
    refine ⟨.lookup, by simp [ChunkAction.count], ?_⟩
    unfold step
    dsimp only
    split
    · simp [cost]
    · simp [cost, comp_def, Building.cost]
  | building builders =>
    by_cases built : ∀ builder ∈ builders, builder.2.isBuilt
    · refine ⟨.finish, by simp [ChunkAction.count], ?_⟩
      simp [step, cost, all_eq_true.mpr built]
    · push Not at built
      obtain ⟨builder, mem, unbuilt⟩ := built
      obtain ⟨position, stands⟩ := mem_iff_getElem?.mp mem
      obtain ⟨action, drawn, less⟩ :=
        @Building.exists_step es t r builder.2 (by simpa using unbuilt) builder.1 n
      refine ⟨.build position action, drawn, ?_⟩
      simp only [step, stands]
      exact Nat.add_lt_add_right (sum_map_set_lt stands less) 1
  | done chain => cases more

@[simp] theorem stored_step (action : ChunkAction) : (chunk.step es r t action).1.stored = t.stored := by
  cases action <;> unfold step <;> dsimp only <;> repeat' (first | rfl | exact Building.stored_step _ _ | split)

end Chunk

namespace Call

def cost (events : Events) (stored : Finset EventId) (call : Call) : Nat :=
  match call.stage with
  | .bucketing rest buckets => rest.length * (buildCost events stored + 1) +
    (buckets.map fun bucket => bucket.card * buildCost events stored + 2).sum + 2
  | .collecting chunks => (chunks.map (Chunk.cost events stored)).sum + 1
  | .done _ | .dropped => 0

variable {es : Events} {t : Tables} {c : Call}

theorem exists_step (more : c.result = none) (runs : c.stage ≠ .dropped) (n : ShortEventId) :
    ∃ action : CallAction, (∀ drawn ∈ action.count, drawn = n) ∧
      cost es t.stored (c.step es t action).2 < c.cost es t.stored := by
  obtain ⟨r, startingEvents, stage⟩ := c
  cases stage with
  | bucketing rest buckets =>
    cases rest with
    | nil =>
      refine ⟨.collect, by simp [CallAction.count], ?_⟩
      simp [step, cost, comp_def, Chunk.cost, Bucket.starting]
    | cons e rest =>
      refine ⟨.bucket n, by simp [CallAction.count], ?_⟩
      have one (bucket : Bucket) (start : ShortEventId ×ₗ EventId) :
          (insert start bucket).card * buildCost es t.stored + 2 ≤
            bucket.card * buildCost es t.stored + 2 + buildCost es t.stored := by
        have grown := Nat.mul_le_mul_right (buildCost es t.stored) (Finset.card_insert_le start bucket)
        rw [Nat.succ_mul] at grown
        omega
      have all := sum_map_modify_le (fun bucket => bucket.card * buildCost es t.stored + 2) _
        (one · (toLex ((t.getOrCreateShorteventid e n).2, e))) buckets
        ((t.getOrCreateShorteventid e n).2.toNat % NUM_BUCKETS)
      simp only [step, cost, length_cons, Nat.succ_mul]
      omega
  | collecting chunks =>
    by_cases done : ∀ chunk ∈ chunks, chunk.isDone
    · refine ⟨.finish, by simp [CallAction.count], ?_⟩
      simp [step, cost, all_eq_true.mpr done]
    · push Not at done
      obtain ⟨chunk, mem, working⟩ := done
      obtain ⟨position, stands⟩ := mem_iff_getElem?.mp mem
      obtain ⟨action, drawn, less⟩ := @Chunk.exists_step es t r chunk (by simpa using working) n
      refine ⟨.chunk position action, drawn, ?_⟩
      simp only [step, stands]
      exact Nat.add_lt_add_right (sum_map_set_lt stands less) 1
  | done chain => cases more
  | dropped => exact absurd rfl runs

theorem stored_step (action : CallAction) : (c.step es t action).1.stored = t.stored := by
  cases action <;> unfold step <;> dsimp only <;>
    repeat' (first | rfl | exact stored_getOrCreateShorteventid .. | exact Chunk.stored_step _ | split)

theorem running_step (running : c.stage ≠ .dropped) (action : CallAction) : (c.step es t action).2.stage ≠ .dropped := by
  cases action <;> unfold step <;> dsimp only <;> repeat' (first | exact running | (intro impossible; cases impossible) | split)

end Call

namespace Service

def Own (position : Nat) (draw : Service → ShortEventId) (service : Service) (event : Event) : Prop :=
  ∃ action, event = .tick position action ∧ ∀ count ∈ action.count, count = draw service

/-- Left to itself, whatever numbers it is given, a call returns. -/
theorem returns (es : Events) (draw : Service → ShortEventId) {v : Service} {position : Nat} {c : Call}
    (stands : v.calls[position]? = some c) (runs : c.stage ≠ .dropped) :
    ∃ actions, Admits (step es) (Own position draw) v actions ∧
      ∃ after chain, (run (step es) v actions).calls[position]? = some after ∧ after.result = some chain := by
  -- On the cost of the call.
  induction le : c.cost es v.tables.stored using Nat.strong_induction_on generalizing v c with
  | _ cost ih =>
    cases result : c.result with
    | some chain => exact ⟨[], trivial, c, chain, stands, result⟩
    | none =>
      obtain ⟨action, drawn, less⟩ := @Call.exists_step es v.tables c result runs (draw v)
      have next : v.step es (.tick position action) = ⟨(c.step es v.tables action).1,
            v.calls.set position (c.step es v.tables action).2⟩ := by
        simp [step, stands]
      have after : (v.step es (.tick position action)).calls[position]? = some (c.step es v.tables action).2 := by
        rw [next]
        exact List.getElem?_set_self (List.getElem?_eq_some_iff.mp stands).1
      have got : (v.step es (.tick position action)).tables.stored = v.tables.stored := by
        rw [next]
        exact Call.stored_step action
      obtain ⟨actions, own, done⟩ := ih _ (le ▸ less) after (Call.running_step runs action) (by rw [got])
      exact ⟨.tick position action :: actions, ⟨⟨action, rfl, drawn⟩, own⟩, done⟩

end Service

end Wbfuwunel.Rooms.AuthChain
