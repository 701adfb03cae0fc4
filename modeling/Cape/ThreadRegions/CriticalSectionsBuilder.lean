import Mathlib.Data.Fintype.Card
import Cape.ThreadRegions.Nodes

/-!
# Building critical sections

`CriticalSectionsBuilder` collects the nodes of the critical section of a lock by a depth-first
search from it. The unlocks that the search meets leave the set `currentUnlocks`; a node that it
comes to when the set is empty is collected and its successors are not visited from it.

A recursion deeper than its bound ends with `none`.
-/

set_option autoImplicit false

namespace Cape.ThreadRegions

/-- A `LockNode` with the `UnlockNode`s that correspond to it. -/
structure LockNode {Node : Type} (graph : ThreadFlowGraph Node) where
  node : Node
  correspondingUnlocks : List Node
  node_type : graph.getType node = .lock
  unlock_type : ∀ unlock ∈ correspondingUnlocks, graph.getType unlock = .unlock

structure CriticalSection (Node : Type) where
  lock : Node
  nodes : List Node := []

structure CriticalSectionsBuilder (Node CallInst : Type) where
  currentUnlocks : List Node := []
  visited : List Node := []
  examined : List Node := []
  criticalSections : List (CallInst × CriticalSection Node) := []

/-- `insertNodes`, with whether the section has grown. -/
def CriticalSection.insertNodes {Node : Type} [DecidableEq Node] (criticalSection : CriticalSection Node)
    (nodes : List Node) : Bool × CriticalSection Node :=
  let inserted := (criticalSection.nodes ∪ nodes).filter (· ≠ criticalSection.lock)
  (decide (criticalSection.nodes.length < inserted.length),
    { criticalSection with nodes := inserted })

namespace CriticalSectionsBuilder

variable {Node CallInst : Type} [DecidableEq Node] (graph : ThreadFlowGraph Node)

def preVisit (builder : CriticalSectionsBuilder Node CallInst) (node : Node) :
    CriticalSectionsBuilder Node CallInst :=
  { builder with
    visited := builder.visited.insert node
    currentUnlocks :=
      if graph.getType node = .unlock then builder.currentUnlocks.filter (· ≠ node)
      else builder.currentUnlocks }

def postVisit (builder : CriticalSectionsBuilder Node CallInst) (node : Node) :
    CriticalSectionsBuilder Node CallInst :=
  { builder with
    visited := builder.visited.filter (· ≠ node)
    examined := builder.examined.insert node }

/-- `visit`, with the function that visits a successor. -/
def visit (visitNode : Node → CriticalSectionsBuilder Node CallInst →
      Option (CriticalSectionsBuilder Node CallInst))
    (node : Node) (builder : CriticalSectionsBuilder Node CallInst) :
    Option (CriticalSectionsBuilder Node CallInst) :=
  if builder.currentUnlocks.isEmpty then some builder
  else (graph.nodeIterator node).foldlM (fun builder successor =>
    if successor ∉ builder.visited ∧ successor ∉ builder.examined then visitNode successor builder
    else some builder) builder

def visitNode : Nat → Node → CriticalSectionsBuilder Node CallInst →
    Option (CriticalSectionsBuilder Node CallInst)
  | 0, _, _ => none
  | depth + 1, node, builder => do
      let builder ← visit graph (visitNode depth) node (builder.preVisit graph node)
      return builder.postVisit node

variable [DecidableEq CallInst] {graph}

/-- `criticalSections_[call]`, where there is a section. -/
def modifySection (sections : List (CallInst × CriticalSection Node)) (call : CallInst)
    (criticalSection : CriticalSection Node) : List (CallInst × CriticalSection Node) :=
  sections.map fun entry => if entry.1 = call then (call, criticalSection) else entry

/-- `populateCriticalSection` for the section of the lock. -/
def populateCriticalSection (builder : CriticalSectionsBuilder Node CallInst) (call : CallInst) :
    Option (Bool × CriticalSectionsBuilder Node CallInst) := do
  let criticalSection ← builder.criticalSections.lookup call
  let (changed, criticalSection) := criticalSection.insertNodes builder.examined
  return (changed, { builder with
    criticalSections := modifySection builder.criticalSections call criticalSection })

/-- A call instruction that has a section keeps it. -/
def buildCriticalSection [Fintype Node] (callInstruction : Node → CallInst) (lock : LockNode graph)
    (builder : CriticalSectionsBuilder Node CallInst) :
    Option (Bool × CriticalSectionsBuilder Node CallInst) :=
  match builder.criticalSections.lookup (callInstruction lock.node) with
  | some _ => some (false, builder)
  | none => do
      let builder ← visitNode graph (Fintype.card Node + 1) lock.node { builder with
        criticalSections :=
          (callInstruction lock.node, { lock := lock.node }) :: builder.criticalSections
        currentUnlocks := lock.correspondingUnlocks }
      let (changed, builder) ← builder.populateCriticalSection (callInstruction lock.node)
      return (changed, { builder with examined := [] })

end CriticalSectionsBuilder

end Cape.ThreadRegions
