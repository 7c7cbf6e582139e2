import Mathlib.Data.List.Lex
import Mathlib.Data.Set.Finite.Basic
import Mathlib.Order.WellFounded

/-! Orders of a finite graph in which every node comes behind the nodes it refers to.

A node is ready when all it refers to is done. Taking the least node that is ready, again and again, gives one order and
no other, and it is the first of all topological orders when they are compared from their beginning on.
-/

set_option autoImplicit false

namespace Wbfuwunel.Foundation

open List

section Orders

variable {α κ : Type} (nodes : List α) (refers : α → α → Prop)

structure Ready (done : List α) (node : α) : Prop where
  inside : node ∈ nodes
  pending : node ∉ done
  behind : ∀ other ∈ nodes, refers node other → other ∈ done

/-- From `done` on, nodes that are each ready in their turn, until none is left. -/
inductive Topological : List α → List α → Prop where
  | nil {done : List α} : (∀ node ∈ nodes, node ∈ done) → Topological done []
  | cons {done rest : List α} {node : α} : Ready nodes refers done node → Topological (done ++ [node]) rest →
      Topological done (node :: rest)

/-- No node leads back to itself inside the graph. -/
def Acyclic : Prop := ∀ node, ¬Relation.TransGen (fun node other => other ∈ nodes ∧ refers node other) node node

variable [LinearOrder κ] (key : α → κ)

def First (done : List α) (node : α) : Prop :=
  Ready nodes refers done node ∧ ∀ other, Ready nodes refers done other → key node ≤ key other

inductive Greedy : List α → List α → Prop where
  | nil {done : List α} : (∀ node ∈ nodes, node ∈ done) → Greedy done []
  | cons {done rest : List α} {node : α} : First nodes refers key done node → Greedy (done ++ [node]) rest →
      Greedy done (node :: rest)

variable {nodes refers key} {done order o : List α}

theorem Greedy.topological (greedy : Greedy nodes refers key done order) : Topological nodes refers done order := by
  induction greedy with
  | nil all => exact .nil all
  | cons a _ ih => exact .cons a.1 ih

theorem acyclic_of_rank (rank : α → Nat) (lower : ∀ node o, o ∈ nodes → refers node o → rank o < rank node) :
    Acyclic nodes refers := by
  intro node cycle
  have down : ∀ {node o}, Relation.TransGen (fun node o => o ∈ nodes ∧ refers node o) node o → rank o < rank node := by
    intro node o path
    induction path with
    | single edge => exact lower _ _ edge.1 edge.2
    | tail _ edge ih => exact (lower _ _ edge.1 edge.2).trans ih
  exact lt_irrefl _ (down cycle)

theorem exists_ready (acyclic : Acyclic nodes refers) {node : α} (mem : node ∈ nodes) (pending : node ∉ done) :
    ∃ node, Ready nodes refers done node := by
  let lt (a b : {node // node ∈ nodes}) : Prop :=
    Relation.TransGen (fun node o => o ∈ nodes ∧ refers node o) b.1 a.1
  have finite : Finite {node // node ∈ nodes} := (finite_toSet nodes).to_subtype
  have transitive : IsTrans _ lt := ⟨fun _ _ _ lower upper => Relation.TransGen.trans upper lower⟩
  have irreflexive : Std.Irrefl lt := ⟨fun node => acyclic node.1⟩
  -- A node that is left and below which nothing is left.
  obtain ⟨least, left, least_min⟩ := (Finite.wellFounded_of_trans_of_irrefl lt).has_min
    {node | node.1 ∉ done} ⟨⟨node, mem⟩, pending⟩
  refine ⟨least.1, least.2, left, fun o known refers => ?_⟩
  by_contra out
  exact least_min ⟨o, known⟩ out (.single ⟨known, refers⟩)

section Topological

theorem Topological.mem_iff (topological : Topological nodes refers done order) (node : α) :
    node ∈ order ↔ node ∈ nodes ∧ node ∉ done := by
  induction topological with
  | nil all => simpa using all node
  | @cons done rest a ok _ ih =>
    rw [mem_cons, ih, mem_append, mem_singleton]
    constructor
    · rintro (rfl | ⟨mem, pending⟩)
      · exact ⟨ok.inside, ok.pending⟩
      · exact ⟨mem, fun old => pending (.inl old)⟩
    · rintro ⟨mem, pending⟩
      by_cases eq : node = a
      · exact .inl eq
      · exact .inr ⟨mem, fun old => old.elim pending eq⟩

theorem Topological.nodup (topological : Topological nodes refers done order) : order.Nodup := by
  induction topological with
  | nil _ => exact nodup_nil
  | cons _ rest ih => exact nodup_cons.mpr ⟨fun mem => ((rest.mem_iff _).mp mem).2 (by simp), ih⟩

theorem Topological.perm (topological : Topological nodes refers [] order) (distinct : nodes.Nodup) : order.Perm nodes :=
  (perm_ext_iff_of_nodup topological.nodup distinct).mpr fun node => by simp [topological.mem_iff node]

theorem topological_of_ready (all : ∀ node ∈ nodes, node ∈ done ∨ node ∈ order)
    (ok : ∀ (i : Nat) (node : α), order[i]? = some node → Ready nodes refers (done ++ order.take i) node) :
    Topological nodes refers done order := by
  induction order generalizing done with
  | nil => exact .nil fun node mem => (all node mem).resolve_right (by simp)
  | cons a rest ih =>
    have head := ok 0 a rfl
    rw [take_zero, append_nil] at head
    refine .cons head (ih (fun node mem => ?_) fun i node got => ?_)
    · have known := all node mem
      simp only [mem_cons, mem_append] at known ⊢
      tauto
    · simpa using ok (i + 1) node got

end Topological

theorem Greedy.first (greedy : Greedy nodes refers key done order) {i : Nat} {node : α}
    (got : order[i]? = some node) : First nodes refers key (done ++ order.take i) node := by
  induction greedy generalizing i with
  | nil _ => cases got
  | cons a _ ih =>
    cases i with
    | zero =>
      obtain rfl := Option.some.inj got
      simpa using a
    | succ i => simpa using ih got

/-- No topological order comes before the greedy one. -/
theorem Greedy.map_le (injective : ∀ a ∈ nodes, ∀ b ∈ nodes, key a = key b → a = b)
    (greedy : Greedy nodes refers key done order) (topological : Topological nodes refers done o) :
    order.map key ≤ o.map key := by
  induction greedy generalizing o with
  | nil all => exact not_lt.mp (not_lt_nil _)
  | @cons done rest node a _ ih =>
    cases topological with
    | nil all => exact absurd (all node a.1.inside) a.1.pending
    | @cons _ _ node' ok rest' =>
      by_cases eq : node = node'
      · subst eq
        exact cons_le_cons _ (ih rest')
      · refine (cons_lt_cons_iff.mpr (.inl (lt_of_le_of_ne (a.2 node' ok) fun equal => eq ?_))).le
        exact injective node a.1.inside node' ok.inside equal

/-- There is one greedy order, and it depends on the nodes as a set. -/
theorem Greedy.unique {nodes' : List α} (eq : ∀ node, node ∈ nodes ↔ node ∈ nodes')
    (injective : ∀ a ∈ nodes, ∀ b ∈ nodes, key a = key b → a = b)
    (greedy : Greedy nodes refers key done order) (greedy' : Greedy nodes' refers key done o) : order = o := by
  have ok {done : List α} {node : α} : Ready nodes refers done node ↔ Ready nodes' refers done node :=
    ⟨fun ok => ⟨(eq node).mp ok.inside, ok.pending, fun node mem => ok.behind node ((eq node).mpr mem)⟩,
      fun ok => ⟨(eq node).mpr ok.inside, ok.pending, fun node mem => ok.behind node ((eq node).mp mem)⟩⟩
  induction greedy generalizing o with
  | nil all =>
    cases greedy' with
    | nil _ => rfl
    | cons a _ => exact absurd (all _ ((eq _).mpr a.1.inside)) a.1.pending
  | @cons done rest node a _ ih =>
    cases greedy' with
    | nil all => exact absurd (all _ ((eq _).mp a.1.inside)) a.1.pending
    | @cons _ _ node' a' greedy' =>
      have equal : key node = key node' := le_antisymm (a.2 node' (ok.mpr a'.1)) (a'.2 node (ok.mp a.1))
      obtain rfl := injective node a.1.inside node' (ok.mpr a'.1).inside equal
      rw [ih greedy']

end Orders

end Wbfuwunel.Foundation
