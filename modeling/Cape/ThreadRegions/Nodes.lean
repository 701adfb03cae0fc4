import Mathlib.Data.List.Nodup
import Mathlib.Logic.Relation

/-!
# The thread-flow graph

The nodes of the control flow graph of a program with threads. A node keeps its predecessors and its
successors; a fork also keeps the entries of the functions that it starts, and an exit the joins
that wait for it. `NodeIterator` goes over all of these, the thread edges first.

The sets are lists without repetition in the order in which the source's sets are iterated.
-/

set_option autoImplicit false

namespace Cape.ThreadRegions

universe u

inductive NodeType where
  | general
  | fork
  | join
  | lock
  | unlock
  | entry
  | exit
  | call
  | callFuncptr
  | callReturn
  | ret
  deriving DecidableEq, Repr

/-- `addSuccessor`, `addForkSuccessor` and `addJoinSuccessor` enter an edge at both of its ends.
Entries of forks are `EntryNode`s and waiting nodes of exits are `JoinNode`s. -/
structure ThreadFlowGraph (Node : Type u) where
  getType : Node → NodeType
  successors : Node → List Node
  predecessors : Node → List Node
  forkSuccessors : Node → List Node
  forkPredecessors : Node → List Node
  joinSuccessors : Node → List Node
  joinPredecessors : Node → List Node
  successors_nodup : ∀ node, (successors node).Nodup
  predecessors_nodup : ∀ node, (predecessors node).Nodup
  forkSuccessors_nodup : ∀ node, (forkSuccessors node).Nodup
  forkPredecessors_nodup : ∀ node, (forkPredecessors node).Nodup
  joinSuccessors_nodup : ∀ node, (joinSuccessors node).Nodup
  joinPredecessors_nodup : ∀ node, (joinPredecessors node).Nodup
  mem_predecessors : ∀ node successor, node ∈ predecessors successor ↔ successor ∈ successors node
  mem_forkPredecessors : ∀ node successor,
    node ∈ forkPredecessors successor ↔ successor ∈ forkSuccessors node
  mem_joinPredecessors : ∀ node successor,
    node ∈ joinPredecessors successor ↔ successor ∈ joinSuccessors node
  forkSuccessors_type : ∀ node, ∀ successor ∈ forkSuccessors node,
    getType node = .fork ∧ getType successor = .entry
  joinSuccessors_type : ∀ node, ∀ successor ∈ joinSuccessors node,
    getType node = .exit ∧ getType successor = .join

namespace ThreadFlowGraph

variable {Node : Type u} (graph : ThreadFlowGraph Node)

/-- What the iteration from `begin()` to `end()` of a node goes over. -/
def nodeIterator (node : Node) : List Node :=
  match graph.getType node with
  | .fork => graph.forkSuccessors node ++ graph.successors node
  | .exit => graph.joinSuccessors node ++ graph.successors node
  | _ => graph.successors node

/-- `EntryNode` and `JoinNode` override it. -/
def predecessorsNumber (node : Node) : Nat :=
  match graph.getType node with
  | .entry => (graph.predecessors node).length + (graph.forkPredecessors node).length
  | .join => (graph.predecessors node).length + (graph.joinPredecessors node).length
  | _ => (graph.predecessors node).length

/-- The iteration meets the successor. -/
def Edge (node successor : Node) : Prop := successor ∈ graph.nodeIterator node

def Reaches : Node → Node → Prop := Relation.ReflTransGen graph.Edge

instance [DecidableEq Node] (node successor : Node) : Decidable (graph.Edge node successor) :=
  inferInstanceAs (Decidable (successor ∈ graph.nodeIterator node))

variable {graph}

/-- Only entries and joins are met by a thread edge. -/
theorem mem_successors_of_edge {node successor : Node} (h : graph.Edge node successor)
    (hentry : graph.getType successor ≠ .entry) (hjoin : graph.getType successor ≠ .join) :
    successor ∈ graph.successors node := by
  simp only [Edge, nodeIterator] at h
  split at h
  · rcases List.mem_append.1 h with h | h
    · exact absurd (graph.forkSuccessors_type _ _ h).2 hentry
    · exact h
  · rcases List.mem_append.1 h with h | h
    · exact absurd (graph.joinSuccessors_type _ _ h).2 hjoin
    · exact h
  · exact h

/-- Only entries and joins are met twice. -/
theorem pairwise_nodeIterator (node : Node) : (graph.nodeIterator node).Pairwise fun a b =>
    a = b → graph.getType a = .entry ∨ graph.getType a = .join := by
  have hplain : (graph.successors node).Pairwise fun a b =>
      a = b → graph.getType a = .entry ∨ graph.getType a = .join :=
    (graph.successors_nodup node).imp fun hne heq => absurd heq hne
  simp only [nodeIterator]
  split
  · apply List.pairwise_append.2
    refine ⟨(graph.forkSuccessors_nodup node).imp fun hne heq => absurd heq hne, hplain, ?_⟩
    exact fun a ha _ _ _ => Or.inl (graph.forkSuccessors_type node a ha).2
  · apply List.pairwise_append.2
    refine ⟨(graph.joinSuccessors_nodup node).imp fun hne heq => absurd heq hne, hplain, ?_⟩
    exact fun a ha _ _ _ => Or.inr (graph.joinSuccessors_type node a ha).2
  · exact hplain

/-- Of a node that is no entry and no join and has one predecessor at most, there is one edge. -/
theorem eq_of_edge_of_edge {node node' successor : Node}
    (hentry : graph.getType successor ≠ .entry) (hjoin : graph.getType successor ≠ .join)
    (hle : graph.predecessorsNumber successor ≤ 1) (h : graph.Edge node successor)
    (h' : graph.Edge node' successor) : node = node' := by
  have hlength : (graph.predecessors successor).length ≤ 1 := by
    unfold predecessorsNumber at hle
    split at hle
    · next heq => exact absurd heq hentry
    · next heq => exact absurd heq hjoin
    · exact hle
  have hmem := (graph.mem_predecessors _ _).2 (mem_successors_of_edge h hentry hjoin)
  have hmem' := (graph.mem_predecessors _ _).2 (mem_successors_of_edge h' hentry hjoin)
  match hpreds : graph.predecessors successor with
  | [] => simp [hpreds] at hmem
  | [x] =>
      rw [hpreds, List.mem_singleton] at hmem hmem'
      rw [hmem, hmem']
  | _ :: _ :: _ =>
      rw [hpreds] at hlength
      simp at hlength

end ThreadFlowGraph

end Cape.ThreadRegions
