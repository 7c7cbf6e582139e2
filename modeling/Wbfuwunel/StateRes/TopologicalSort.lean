import Mathlib.Data.Prod.Lex
import Wbfuwunel.Foundation.Bytes
import Wbfuwunel.Foundation.Greedy

/-! Reverse topological power ordering: `service/rooms/state_res/topological_sort.rs`.

Kahn's algorithm. A heap holds the events all of whose references are out; the least of them goes out next, is struck from
the references of the events that refer to it, and those that have none left inside the graph enter the heap.
-/

set_option autoImplicit false

namespace Wbfuwunel.StateRes

open Foundation List Function

/-- A creator's level is above every number. -/
inductive UserPowerLevel where
  | int (level : Int)
  | infinite
  deriving DecidableEq

def UserPowerLevel.sortKey : UserPowerLevel → Bool ×ₗ Int
  | int level => toLex (false, level)
  | infinite => toLex (true, 0)

theorem UserPowerLevel.sortKey_injective : Injective sortKey := by
  rintro (level | _) (level' | _) eq <;> simp_all [sortKey]

instance levelOrder : LinearOrder UserPowerLevel := LinearOrder.lift' UserPowerLevel.sortKey UserPowerLevel.sortKey_injective

structure PduInfo where
  powerLevel : UserPowerLevel
  originServerTs : UInt64

structure TieBreaker (Id : Type) where
  eventId : Id
  powerLevel : UserPowerLevel
  originServerTs : UInt64
  deriving DecidableEq

namespace TieBreaker

variable {Id : Type} [LinearOrder Id]

/-- The comparison of power levels is backwards. -/
def cmp (self other : TieBreaker Id) : Ordering :=
  (compare other.powerLevel self.powerLevel).then
    ((compare self.originServerTs other.originServerTs).then (compare self.eventId other.eventId))

def sortKey (tie : TieBreaker Id) : UserPowerLevelᵒᵈ ×ₗ UInt64 ×ₗ Id :=
  toLex (OrderDual.toDual tie.powerLevel, toLex (tie.originServerTs, tie.eventId))

omit [LinearOrder Id] in
theorem sortKey_injective : Injective (@sortKey Id) := by
  rintro ⟨e, level, ts⟩ ⟨e', level', ts'⟩ eq
  obtain ⟨rfl, rfl, rfl⟩ := eq
  rfl

instance tieOrder : LinearOrder (TieBreaker Id) := LinearOrder.lift' sortKey sortKey_injective

theorem lt_iff_cmp (self o : TieBreaker Id) : self < o ↔ self.cmp o = .lt := by
  change self.sortKey < o.sortKey ↔ _
  simp only [cmp, sortKey, Prod.Lex.toLex_lt_toLex, OrderDual.toDual_lt_toDual, Ordering.then_eq_lt, compare_lt_iff_lt,
    compare_eq_iff_eq, EmbeddingLike.apply_eq_iff_eq]
  grind

end TieBreaker

/-- A hash map of events to their references, with the order in which it is walked. -/
structure Graph (Id : Type) where
  ids : List Id
  distinct : ids.Nodup
  references : Id → List Id

section Kahn

variable {Id ε : Type} [LinearOrder Id]

namespace Graph

variable (graph : Graph Id)

def hasPresent (event : Id) : Bool := (graph.references event).any graph.ids.contains

def retain (parent event : Id) : Graph Id :=
  { graph with
    references := update graph.references parent ((graph.references parent).filter (· ≠ event)) }

theorem references_retain (parent e o : Id) : (graph.retain parent e).references o =
    if o = parent then (graph.references parent).filter (· ≠ e) else graph.references o :=
  update_apply _ _ _ _

def incoming : Id → List Id :=
  (graph.ids.flatMap fun event => (graph.references event).map fun reference => (event, reference)).foldl
    (fun incoming edge =>
      if (incoming edge.2).contains edge.1 then incoming
      else update incoming edge.2 (incoming edge.2 ++ [edge.1]))
    fun _ => []

end Graph

abbrev Heap (Id : Type) := List (TieBreaker Id)

def push (heap : Heap Id) (tie : TieBreaker Id) : Heap Id := heap.orderedInsert (· ≤ ·) tie

def tieOf (event : Id) (info : PduInfo) : TieBreaker Id := ⟨event, info.powerLevel, info.originServerTs⟩

variable (query : Id → Except ε PduInfo)

def release (event : Id) (state : Heap Id × Graph Id) (parent : Id) : Except ε (Heap Id × Graph Id) := do
  let graph := state.2.retain parent event
  if graph.hasPresent parent then return (state.1, graph)
  let info ← query parent
  return (push state.1 (tieOf parent info), graph)

/-- `kahn_sort`, for as many rounds as `fuel` has. -/
def kahnSort (incoming : Id → List Id) : Nat → Heap Id × Graph Id → Option (Except ε (List Id))
  | 0, _ => none
  | fuel + 1, (heap, graph) =>
    match heap with
    | [] => some (.ok [])
    | item :: heap =>
      match (incoming item.eventId).foldlM (release query item.eventId) (heap, graph) with
      | .error error => some (.error error)
      | .ok state => (kahnSort incoming fuel state).map fun rest => rest.map (item.eventId :: ·)

def horizon (graph : Graph Id) : Except ε (Heap Id) :=
  (graph.ids.filter fun event => !graph.hasPresent event).foldlM (fun heap event => do
      let info ← query event
      return push heap (tieOf event info))
    []

def topologicalSort (fuel : Nat) (graph : Graph Id) : Option (Except ε (List Id)) :=
  match horizon query graph with
  | .error error => some (.error error)
  | .ok heap => kahnSort query graph.incoming fuel (heap, graph)

end Kahn

/-! ## Who refers to an event -/

section Incoming

variable {Id : Type} [LinearOrder Id]

theorem foldl_incoming (edges : List (Id × Id)) (start : Id → List Id) (reference : Id) :
    let incoming := edges.foldl (fun incoming edge =>
      if (incoming edge.2).contains edge.1 then incoming
      else update incoming edge.2 (incoming edge.2 ++ [edge.1])) start
    (∀ e, e ∈ incoming reference ↔ e ∈ start reference ∨ (e, reference) ∈ edges) ∧
      ((start reference).Nodup → (incoming reference).Nodup) := by
  induction edges generalizing start with
  | nil => simp
  | cons edge edges ih =>
    obtain ⟨e, target⟩ := edge
    simp only [foldl_cons]
    by_cases known : e ∈ start target
    · rw [if_pos (by simpa using known)]
      refine ⟨fun o => ?_, (ih start).2⟩
      rw [(ih start).1, mem_cons, Prod.mk.injEq]
      grind
    · rw [if_neg (by simpa using known)]
      have next := ih (update start target (start target ++ [e]))
      rcases eq_or_ne reference target with rfl | away
      · rw [update_self] at next
        refine ⟨fun o => ?_, fun distinct => next.2 (nodup_append.mpr ⟨distinct, nodup_singleton _, ?_⟩)⟩
        · rw [next.1, mem_append, mem_singleton, mem_cons, Prod.mk.injEq]
          grind
        · rintro o mem _ (⟨⟩ | ⟨_, ⟨⟩⟩) rfl
          exact known mem
      · rw [update_of_ne away] at next
        refine ⟨fun o => ?_, next.2⟩
        rw [next.1, mem_cons, Prod.mk.injEq]
        grind

theorem Graph.mem_incoming (graph : Graph Id) {event reference : Id} :
    event ∈ graph.incoming reference ↔ event ∈ graph.ids ∧ reference ∈ graph.references event := by
  rw [incoming, (foldl_incoming _ _ reference).1]
  simp only [not_mem_nil, false_or, mem_flatMap, mem_map, Prod.mk.injEq]
  constructor
  · rintro ⟨_, mem, _, refers, rfl, rfl⟩
    exact ⟨mem, refers⟩
  · rintro ⟨mem, refers⟩
    exact ⟨event, mem, reference, refers, rfl, rfl⟩

theorem Graph.nodup_incoming (graph : Graph Id) (reference : Id) : (graph.incoming reference).Nodup :=
  (foldl_incoming _ _ reference).2 nodup_nil

end Incoming

/-! ## Rounds -/

section Rounds

variable {Id ε : Type} [LinearOrder Id]

def Graph.Refers (graph : Graph Id) (event reference : Id) : Prop := reference ∈ graph.references event

theorem perm_push (heap : Heap Id) (tie : TieBreaker Id) : (push heap tie).Perm (tie :: heap) :=
  perm_orderedInsert _ tie heap

theorem sorted_push {heap : Heap Id} (ord : heap.Pairwise (· ≤ ·)) (tie : TieBreaker Id) :
    (push heap tie).Pairwise (· ≤ ·) := List.Pairwise.orderedInsert tie heap ord

variable {query : Id → Except ε PduInfo} {info : Id → PduInfo} {heap : Heap Id}

def Grown (info : Id → PduInfo) (heap : Heap Id) (events : List Id) (after : Heap Id) : Prop :=
  after.Perm (events.map (fun event => tieOf event (info event)) ++ heap) ∧ (heap.Pairwise (· ≤ ·) → after.Pairwise (· ≤ ·))

theorem Grown.push {e : Id} {es : List Id} {after : Heap Id}
    (grown : Grown info (StateRes.push heap (tieOf e (info e))) es after) : Grown info heap (e :: es) after := by
  refine ⟨grown.1.trans ?_, fun ord => grown.2 (sorted_push ord _)⟩
  exact ((perm_push _ _).append_left _).trans perm_middle

theorem grown_nil (heap : Heap Id) : Grown info heap [] heap := ⟨List.Perm.refl _, fun ord => ord⟩

theorem horizon_eq (es : List Id) (answers : ∀ e ∈ es, query e = .ok (info e)) : ∃ after, es.foldlM (fun heap e => do
        let info ← query e
        return push heap (tieOf e info)) heap = .ok after ∧ Grown info heap es after := by
  induction es generalizing heap with
  | nil => exact ⟨heap, rfl, grown_nil heap⟩
  | cons e es ih =>
    obtain ⟨after, result, grown⟩ := @ih (push heap (tieOf e (info e))) fun o mem =>
      answers o (mem_cons_of_mem _ mem)
    refine ⟨after, ?_, grown.push⟩
    rw [foldlM_cons, answers e mem_cons_self]
    exact result

def released (graph : Graph Id) (event : Id) (parents : List Id) : List Id :=
  parents.filter fun parent => !((graph.references parent).filter (· ≠ event)).any graph.ids.contains

theorem foldlM_release {graph : Graph Id} {e : Id} {parents : List Id} (distinct : parents.Nodup)
    (answers : ∀ parent ∈ parents, query parent = .ok (info parent)) :
    ∃ after : Heap Id × Graph Id, parents.foldlM (release query e) (heap, graph) = .ok after ∧ after.2.ids = graph.ids ∧
      (∀ parent, after.2.references parent =
        if parent ∈ parents then (graph.references parent).filter (· ≠ e) else graph.references parent) ∧
      Grown info heap (released graph e parents) after.1 := by
  induction parents generalizing heap graph with
  | nil => exact ⟨(heap, graph), rfl, rfl, by simp, grown_nil heap⟩
  | cons parent parents ih =>
    obtain ⟨new, distinct⟩ := nodup_cons.mp distinct
    have answers' : ∀ o ∈ parents, query o = .ok (info o) := fun o mem =>
      answers o (mem_cons_of_mem _ mem)
    have kept : ∀ o ∈ parents, (graph.retain parent e).references o = graph.references o :=
      fun o mem => (graph.references_retain parent e o).trans (if_neg fun eq : o = parent => new (eq ▸ mem))
    have later : released (graph.retain parent e) e parents = released graph e parents :=
      filter_congr fun o mem => by rw [kept o mem]; rfl
    have hit : (graph.retain parent e).hasPresent parent =
        ((graph.references parent).filter (· ≠ e)).any graph.ids.contains := by
      rw [Graph.hasPresent, graph.references_retain, if_pos rfl]
      rfl
    have references (o : Id) : (if o ∈ parents then
          ((graph.retain parent e).references o).filter (· ≠ e) else (graph.retain parent e).references o) =
        if o ∈ parent :: parents then (graph.references o).filter (· ≠ e) else graph.references o := by
      by_cases mem : o ∈ parents
      · simp [mem, kept o mem]
      · rcases eq_or_ne o parent with rfl | apart
        · simp [graph.references_retain]
        · simp [apart, graph.references_retain]
    cases gate : (graph.retain parent e).hasPresent parent with
    | true =>
      obtain ⟨after, result, ids, refs, grown⟩ := @ih heap (graph.retain parent e) distinct answers'
      refine ⟨after, ?_, ids, fun o => (refs o).trans (references o), ?_⟩
      · rw [foldlM_cons, release]
        simp only [gate]
        exact result
      · rwa [later, released, filter_cons_of_neg (by rw [← hit, gate]; decide)] at *
    | false =>
      obtain ⟨after, result, ids, refs, grown⟩ :=
        @ih (push heap (tieOf parent (info parent))) (graph.retain parent e) distinct answers'
      refine ⟨after, ?_, ids, fun o => (refs o).trans (references o), ?_⟩
      · rw [foldlM_cons, release]
        simp only [gate, answers parent mem_cons_self]
        exact result
      · rw [released, filter_cons_of_pos (by rw [← hit, gate]; rfl)]
        rw [later] at grown
        exact grown.push

structure Stands (graph : Graph Id) (info : Id → PduInfo) (done : List Id) (state : Heap Id × Graph Id) : Prop where
  ids : state.2.ids = graph.ids
  references : ∀ event ∈ graph.ids, state.2.references event = (graph.references event).filter (· ∉ done)
  closed : ∀ event ∈ done, ∀ reference ∈ graph.ids, graph.Refers event reference → reference ∈ done
  sorted : state.1.Pairwise (· ≤ ·)
  distinct : state.1.Nodup
  heap : ∀ tie, tie ∈ state.1 ↔ ∃ event, Ready graph.ids graph.Refers done event ∧ tie = tieOf event (info event)

variable {graph : Graph Id}

omit [LinearOrder Id] in
theorem tieOf_inj {e o : Id} {a b : PduInfo} (eq : tieOf e a = tieOf o b) : e = o :=
  congrArg TieBreaker.eventId eq

omit [LinearOrder Id] in
theorem nodup_ties {es : List Id} (distinct : es.Nodup) : (es.map fun e => tieOf e (info e)).Nodup :=
  distinct.map fun _ _ => tieOf_inj

theorem hasPresent_iff {e : Id} : (!graph.hasPresent e) ↔ ∀ reference ∈ graph.ids, ¬graph.Refers e reference := by
  simp only [Graph.hasPresent, Bool.not_eq_true', any_eq_false, contains_eq_mem, decide_eq_true_eq]
  exact ⟨fun absent reference mem refers => absent reference refers mem, fun absent reference refers mem =>
    absent reference mem refers⟩

theorem stands_horizon (answers : ∀ e ∈ graph.ids, query e = .ok (info e)) :
    ∃ heap, horizon query graph = .ok heap ∧ Stands graph info [] (heap, graph) := by
  obtain ⟨heap, result, grown, sorted⟩ := @horizon_eq Id ε _ query info [] (graph.ids.filter fun e => !graph.hasPresent e)
    fun e mem => answers e (mem_of_mem_filter mem)
  rw [append_nil] at grown
  refine ⟨heap, result, rfl, by simp, by simp, sorted List.Pairwise.nil, ?_, fun tie => ?_⟩
  · exact grown.nodup_iff.mpr (nodup_ties (graph.distinct.filter _))
  · rw [grown.mem_iff, mem_map]
    refine exists_congr fun e => ?_
    rw [mem_filter, hasPresent_iff, eq_comm (a := tie)]
    refine and_congr_left fun _ => ?_
    constructor
    · rintro ⟨mem, free⟩
      exact ⟨mem, by simp, fun reference known refers => absurd refers (free reference known)⟩
    · intro ok
      exact ⟨ok.inside, fun reference known refers => by simpa using ok.behind reference known refers⟩

section Round

variable {done : List Id} {item : TieBreaker Id} {s : Graph Id} (stands : Stands graph info done (item :: heap, s))
include stands

theorem Stands.first : First graph.ids graph.Refers (fun e => tieOf e (info e)) done item.eventId ∧
    item = tieOf item.eventId (info item.eventId) := by
  obtain ⟨e, ok, same⟩ := (stands.heap item).mp mem_cons_self
  have own : item.eventId = e := by rw [same]; rfl
  rw [own]
  refine ⟨⟨ok, fun o ok' => ?_⟩, same⟩
  change tieOf e (info e) ≤ tieOf o (info o)
  rw [← same]
  rcases mem_cons.mp ((stands.heap _).mpr ⟨o, ok', rfl⟩) with equal | behind
  · exact le_of_eq equal.symm
  · exact rel_of_pairwise_cons stands.sorted behind

theorem Stands.mem_tail (tie : TieBreaker Id) : tie ∈ heap ↔
    ∃ e, Ready graph.ids graph.Refers done e ∧ e ≠ item.eventId ∧ tie = tieOf e (info e) := by
  obtain ⟨-, own⟩ := stands.first
  have apart : item ∉ heap := (nodup_cons.mp stands.distinct).1
  constructor
  · intro mem
    obtain ⟨e, ok, rfl⟩ := (stands.heap tie).mp (mem_cons_of_mem _ mem)
    refine ⟨e, ok, ?_, rfl⟩
    rintro rfl
    exact apart (own ▸ mem)
  · rintro ⟨e, ok, ne, rfl⟩
    rcases mem_cons.mp ((stands.heap _).mpr ⟨e, ok, rfl⟩) with eq | behind
    · exact absurd (congrArg TieBreaker.eventId eq) ne
    · exact behind

theorem Stands.mem_released (e : Id) : e ∈ released s item.eventId (graph.incoming item.eventId) ↔
    graph.Refers e item.eventId ∧ Ready graph.ids graph.Refers (done ++ [item.eventId]) e := by
  have a := stands.first.1.1
  rw [released, mem_filter, graph.mem_incoming, and_assoc]
  constructor
  · rintro ⟨mem, refers, free⟩
    refine ⟨refers, mem, ?_, fun reference known refers' => ?_⟩
    · rw [mem_append, mem_singleton]
      rintro (old | rfl)
      · exact a.pending (stands.closed e old _ a.inside refers)
      · exact a.pending (a.behind _ a.inside refers)
    · rw [stands.references e mem, show s.ids = graph.ids from stands.ids] at free
      simp only [Bool.not_eq_true', any_eq_false, mem_filter, decide_eq_true_eq, contains_eq_mem] at free
      rw [mem_append, mem_singleton]
      by_contra left
      push Not at left
      exact free reference ⟨⟨refers', left.1⟩, left.2⟩ known
  · rintro ⟨refers, ok⟩
    refine ⟨ok.inside, refers, ?_⟩
    rw [stands.references e ok.inside, show s.ids = graph.ids from stands.ids]
    simp only [Bool.not_eq_true', any_eq_false, mem_filter, decide_eq_true_eq, contains_eq_mem]
    rintro reference ⟨⟨refers', left⟩, ne⟩ known
    have out := ok.behind reference known refers'
    rw [mem_append, mem_singleton] at out
    exact out.elim left ne

theorem Stands.round (answers : ∀ e ∈ graph.ids, query e = .ok (info e)) :
    ∃ after, (graph.incoming item.eventId).foldlM (release query item.eventId) (heap, s) = .ok after ∧
      Stands graph info (done ++ [item.eventId]) after := by
  have a := stands.first.1.1
  obtain ⟨after, result, ids, references, grown, sorted⟩ := @foldlM_release Id ε _ query info heap s item.eventId
    (graph.incoming item.eventId) (graph.nodup_incoming _) fun parent mem => answers parent (graph.mem_incoming.mp mem).1
  refine ⟨after, result, ids.trans stands.ids, ?_, ?_, sorted (pairwise_cons.mp stands.sorted).2, ?_, ?_⟩
  · intro e mem
    rw [references, stands.references e mem]
    have filtered : ((graph.references e).filter (· ∉ done)).filter (· ≠ item.eventId) =
        (graph.references e).filter (· ∉ done ++ [item.eventId]) := by
      rw [filter_filter]
      refine filter_congr fun reference _ => ?_
      grind
    split
    · exact filtered
    next outside =>
      rw [← filtered]
      refine (filter_eq_self.mpr fun reference refers => ?_).symm
      have apart : reference ≠ item.eventId := by
        rintro rfl
        exact outside (graph.mem_incoming.mpr ⟨mem, (mem_filter.mp refers).1⟩)
      simpa using apart
  · intro e mem reference known refers
    rw [mem_append, mem_singleton] at mem ⊢
    rcases mem with old | rfl
    · exact .inl (stands.closed e old reference known refers)
    · exact .inl (a.behind reference known refers)
  · refine grown.nodup_iff.mpr (nodup_append.mpr ⟨nodup_ties ((graph.nodup_incoming _).filter _),
      (nodup_cons.mp stands.distinct).2, ?_⟩)
    -- What is released refers to the head, which is not out, and was not ready before.
    rintro _ fresh tie old rfl
    obtain ⟨e, mem, rfl⟩ := mem_map.mp fresh
    obtain ⟨o, ok, -, same⟩ := (stands.mem_tail _).mp old
    obtain rfl := tieOf_inj same
    exact a.pending (ok.behind _ a.inside ((stands.mem_released e).mp mem).1)
  · intro tie
    rw [grown.mem_iff, mem_append, mem_map, stands.mem_tail]
    constructor
    · rintro (⟨e, mem, rfl⟩ | ⟨e, ok, ne, rfl⟩)
      · exact ⟨e, ((stands.mem_released e).mp mem).2, rfl⟩
      · refine ⟨e, ⟨ok.inside, ?_, fun reference known refers => ?_⟩, rfl⟩
        · rw [mem_append, mem_singleton]
          exact fun out => out.elim ok.pending ne
        · exact mem_append_left _ (ok.behind reference known refers)
    · rintro ⟨e, ok, rfl⟩
      have pending := ok.pending
      rw [mem_append, mem_singleton, not_or] at pending
      by_cases refers : graph.Refers e item.eventId
      · exact .inl ⟨e, (stands.mem_released e).mpr ⟨refers, ok⟩, rfl⟩
      · refine .inr ⟨e, ⟨ok.inside, pending.1, fun reference known refers' => ?_⟩, pending.2, rfl⟩
        have out := ok.behind reference known refers'
        rw [mem_append, mem_singleton] at out
        refine out.resolve_right ?_
        rintro rfl
        exact refers refers'

end Round

theorem kahnSort_greedy (acyclic : Acyclic graph.ids graph.Refers)
    (answers : ∀ e ∈ graph.ids, query e = .ok (info e)) {fuel : Nat} {done : List Id} {s : Heap Id × Graph Id}
    (stands : Stands graph info done s) (enough : (graph.ids.filter (· ∉ done)).length < fuel) :
    ∃ order, kahnSort query graph.incoming fuel s = some (.ok order) ∧
      Greedy graph.ids graph.Refers (fun e => tieOf e (info e)) done order := by
  induction fuel generalizing done s with
  | zero => exact absurd enough (Nat.not_lt_zero _)
  | succ fuel ih =>
    obtain ⟨heap, current⟩ := s
    cases heap with
    | nil =>
      refine ⟨[], rfl, .nil fun e mem => ?_⟩
      by_contra pending
      obtain ⟨next, ready⟩ := exists_ready acyclic mem pending
      cases (stands.heap _).mpr ⟨next, ready, rfl⟩
    | cons item heap =>
      have a := stands.first.1
      obtain ⟨after, result, stands'⟩ := stands.round answers
      have fewer : (graph.ids.filter (· ∉ done ++ [item.eventId])).length < (graph.ids.filter (· ∉ done)).length := by
        have nested : graph.ids.filter (· ∉ done ++ [item.eventId]) =
            (graph.ids.filter (· ∉ done)).filter (· ≠ item.eventId) := by
          rw [filter_filter]
          refine filter_congr fun e _ => ?_
          grind
        rw [nested, length_filter_lt_length_iff_exists]
        exact ⟨item.eventId, mem_filter.mpr ⟨a.1.inside, by simpa using a.1.pending⟩, by simp⟩
      obtain ⟨order, ord, greedy⟩ := ih stands' (by omega)
      refine ⟨item.eventId :: order, ?_, .cons a greedy⟩
      rw [kahnSort]
      simp only [result, ord]
      rfl

end Rounds

/-! ## The order -/

section Order

variable {Id ε : Type} [LinearOrder Id] {query : Id → Except ε PduInfo} {info : Id → PduInfo}

theorem topologicalSort_greedy {graph : Graph Id} (acyclic : Acyclic graph.ids graph.Refers)
    (answers : ∀ e ∈ graph.ids, query e = .ok (info e)) {fuel : Nat} (enough : graph.ids.length < fuel) :
    ∃ order, topologicalSort query fuel graph = some (.ok order) ∧
      Greedy graph.ids graph.Refers (fun e => tieOf e (info e)) [] order := by
  obtain ⟨heap, begun, stands⟩ := stands_horizon answers
  obtain ⟨order, ord, greedy⟩ := kahnSort_greedy acyclic answers stands (by simpa using enough)
  exact ⟨order, by rw [topologicalSort, begun]; exact ord, greedy⟩

/-- The sort returns every event of an acyclic graph once, each the least of those whose references inside the graph are
out. No topological order comes before it, and the order in which the map is walked does not matter. -/
theorem topological_sort_least (graph : Graph Id) (acyclic : Acyclic graph.ids graph.Refers)
    (answers : ∀ event ∈ graph.ids, query event = .ok (info event)) (fuel : Nat) (enough : graph.ids.length < fuel) :
    ∃ order, topologicalSort query fuel graph = some (.ok order) ∧ order.Perm graph.ids ∧
      (∀ (index : Nat) (event : Id), order[index]? = some event → Ready graph.ids graph.Refers (order.take index) event ∧
        ∀ other, Ready graph.ids graph.Refers (order.take index) other →
          tieOf event (info event) ≤ tieOf other (info other)) ∧
      (∀ other : List Id, other.Perm graph.ids →
        (∀ (index : Nat) (event : Id), other[index]? = some event → Ready graph.ids graph.Refers (other.take index) event) →
        order.map (fun event => tieOf event (info event)) ≤ other.map fun event => tieOf event (info event)) ∧
      ∀ walked : Graph Id, walked.ids.Perm graph.ids → walked.references = graph.references →
        topologicalSort query fuel walked = some (.ok order) := by
  have injective : ∀ first ∈ graph.ids, ∀ b ∈ graph.ids, tieOf first (info first) = tieOf b (info b) →
      first = b := fun _ _ _ _ => tieOf_inj
  obtain ⟨order, ord, greedy⟩ := topologicalSort_greedy acyclic answers enough
  refine ⟨order, ord, greedy.topological.perm graph.distinct, fun index event got => ?_, ?_, ?_⟩
  · simpa only [First, nil_append] using greedy.first got
  · intro other eq ok
    refine greedy.map_le injective (topological_of_ready ?_ (by simpa using ok))
    exact fun event mem => .inr (eq.mem_iff.mpr mem)
  · intro walked eq equal
    have refers : walked.Refers = graph.Refers := by
      funext event reference
      rw [Graph.Refers, Graph.Refers, equal]
    have acyclic' : Acyclic walked.ids walked.Refers := by
      simpa only [Acyclic, refers, eq.mem_iff] using acyclic
    obtain ⟨order', ord', greedy'⟩ := topologicalSort_greedy acyclic'
      (fun event mem => answers event (eq.mem_iff.mp mem)) (by rwa [eq.length_eq])
    rw [ord', greedy.unique (fun event => eq.mem_iff.symm) injective (refers ▸ greedy')]

def forked : Graph Nat where
  ids := [2, 1, 0]
  distinct := by decide
  references event := if event = 2 then [0, 7, 0] else if event = 1 then [0] else []

def forkedInfo (event : Nat) : PduInfo := if event = 2 then ⟨.int 100, 5⟩ else ⟨.int 0, 3⟩

def forkedQuery (event : Nat) : Except Unit PduInfo := .ok (forkedInfo event)

theorem topological_sort_least_forked :
    ∃ order, topologicalSort forkedQuery 4 forked = some (.ok order) ∧ order.Perm [2, 1, 0] := by
  have acyclic : Acyclic forked.ids forked.Refers := by
    refine acyclic_of_rank (fun e => e) fun e reference mem refers => ?_
    have refers : reference ∈ if e = 2 then [0, 7, 0] else if e = 1 then [0] else [] := refers
    have mem : reference ∈ [2, 1, 0] := mem
    grind
  obtain ⟨order, ord, perm, -⟩ := @topological_sort_least Nat Unit _ forkedQuery forkedInfo forked acyclic (fun _ _ => rfl) 4 (by decide)
  exact ⟨order, ord, perm⟩

example : topologicalSort forkedQuery 4 forked = some (.ok [0, 2, 1]) := by decide +kernel

end Order

end Wbfuwunel.StateRes
