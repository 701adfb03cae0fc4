import Mathlib.Data.Fintype.Card
import Cape.ThreadRegions.Nodes

/-!
# Building thread regions

`ThreadRegionsBuilder` splits the thread-flow graph into regions by a depth-first search. The nodes
on the stack and the finished nodes have a region each, in `visitedNodeToRegionMap` and in
`examinedNodeToRegionMap`.

A pointer to a region is the number of regions that were allocated before it. A step that would
follow the null pointer, and a recursion deeper than its bound, end with `none`.
-/

set_option autoImplicit false

namespace Cape.ThreadRegions

structure ThreadRegion (Node : Type) where
  foundingNode : Node
  predecessors : List Nat := []
  successors : List Nat := []
  nodes : List Node := []

structure ThreadRegionsBuilder (Node : Type) where
  visitedNodeToRegionMap : List (Node × Nat) := []
  examinedNodeToRegionMap : List (Node × Nat) := []
  threadRegions : List (ThreadRegion Node) := []

section Maps

variable {Node : Type} [DecidableEq Node]

/-- `unordered_map::emplace`: an entry that the key has is kept. -/
def emplace (map : List (Node × Nat)) (node : Node) (region : Nat) : List (Node × Nat) :=
  if node ∈ map.map Prod.fst then map else (node, region) :: map

/-- `unordered_map::erase` -/
def erase (map : List (Node × Nat)) (node : Node) : List (Node × Nat) :=
  map.filter fun entry => entry.1 ≠ node

end Maps

/-- A region is founded by the search from `caller` to `successor`. -/
def shouldCreateNewRegion {Node : Type} (graph : ThreadFlowGraph Node)
    (caller successor : Node) : Bool :=
  graph.getType caller = .exit || graph.getType caller = .fork ||
    graph.getType successor = .entry || graph.getType successor = .join ||
    decide (graph.predecessorsNumber successor > 1)

namespace ThreadRegionsBuilder

variable {Node : Type}

/-- `new ThreadRegion(node)`, entered in `threadRegions_`. -/
def newRegion (builder : ThreadRegionsBuilder Node) (node : Node) : ThreadRegionsBuilder Node :=
  { builder with threadRegions := builder.threadRegions ++ [{ foundingNode := node }] }

/-- `region->addSuccessor(successor)` -/
def addSuccessor (builder : ThreadRegionsBuilder Node) (region successor : Nat) :
    ThreadRegionsBuilder Node :=
  { builder with
    threadRegions := (builder.threadRegions.modify region fun r =>
      { r with successors := r.successors.insert successor }).modify successor fun r =>
        { r with predecessors := r.predecessors.insert region } }

variable [DecidableEq Node]

def regionOfVisitedNode (builder : ThreadRegionsBuilder Node) (node : Node) : Option Nat :=
  builder.visitedNodeToRegionMap.lookup node

def regionOfExaminedNode (builder : ThreadRegionsBuilder Node) (node : Node) : Option Nat :=
  builder.examinedNodeToRegionMap.lookup node

def visited (builder : ThreadRegionsBuilder Node) (node : Node) : Bool :=
  (builder.regionOfVisitedNode node).isSome

def examined (builder : ThreadRegionsBuilder Node) (node : Node) : Bool :=
  (builder.regionOfExaminedNode node).isSome

def region (builder : ThreadRegionsBuilder Node) (node : Node) : Option Nat :=
  match builder.regionOfExaminedNode node with
  | some region => some region
  | none => builder.regionOfVisitedNode node

/-- The region is not null and its founding node is examined. -/
def examinedRegion (builder : ThreadRegionsBuilder Node) (region : Option Nat) : Bool :=
  match region.bind (builder.threadRegions[·]?) with
  | none => false
  | some region => builder.examined region.foundingNode

/-- The node is put on the stack. -/
def emplaceVisited (builder : ThreadRegionsBuilder Node) (node : Node) (region : Nat) :
    ThreadRegionsBuilder Node :=
  { builder with visitedNodeToRegionMap := emplace builder.visitedNodeToRegionMap node region }

/-- The node is finished. -/
def emplaceExamined (builder : ThreadRegionsBuilder Node) (node : Node) (region : Nat) :
    ThreadRegionsBuilder Node :=
  { builder with
    examinedNodeToRegionMap := emplace builder.examinedNodeToRegionMap node region
    visitedNodeToRegionMap := erase builder.visitedNodeToRegionMap node }

variable (graph : ThreadFlowGraph Node)

/-- The region of a node that the search enters from `node`, and the builder with it. -/
def successorRegion (builder : ThreadRegionsBuilder Node) (node successor : Node) :
    Option (ThreadRegionsBuilder Node × Nat) := do
  let region ← builder.region node
  if shouldCreateNewRegion graph node successor then
    let created := builder.threadRegions.length
    return ((builder.newRegion successor).addSuccessor region created, created)
  else
    return (builder, region)

/-- The body of the loop of `visit`. -/
def visitSuccessor (visit : Node → ThreadRegionsBuilder Node → Option (ThreadRegionsBuilder Node))
    (node : Node) (builder : ThreadRegionsBuilder Node) (successor : Node) :
    Option (ThreadRegionsBuilder Node) :=
  if builder.visited successor then
    some builder
  else if builder.examinedRegion (builder.region successor) then do
    let region ← builder.region node
    let finished ← builder.region successor
    return builder.addSuccessor region finished
  else do
    let (builder, region) ← builder.successorRegion graph node successor
    visit successor (builder.emplaceVisited successor region)

def visit : Nat → Node → ThreadRegionsBuilder Node → Option (ThreadRegionsBuilder Node)
  | 0, _, _ => none
  | depth + 1, node, builder => do
      let builder ← (graph.nodeIterator node).foldlM
        (visitSuccessor graph (visit depth) node) builder
      let region ← builder.region node
      return builder.emplaceExamined node region

omit [DecidableEq Node] in
/-- Every finished node is inserted into its region. -/
def populateThreadRegions (builder : ThreadRegionsBuilder Node) : ThreadRegionsBuilder Node :=
  { builder with
    threadRegions := builder.examinedNodeToRegionMap.foldl
      (fun regions entry => regions.modify entry.2 fun r => { r with nodes := entry.1 :: r.nodes })
      builder.threadRegions }

def clearComputingData (builder : ThreadRegionsBuilder Node) : ThreadRegionsBuilder Node :=
  { builder with visitedNodeToRegionMap := [], examinedNodeToRegionMap := [] }

/-- The builder with `node` on the stack in a region of its own. -/
def start (node : Node) : ThreadRegionsBuilder Node :=
  (newRegion {} node).emplaceVisited node 0

/-- The builder that `build` leaves. -/
def build [Fintype Node] (node : Node) : Option (ThreadRegionsBuilder Node) := do
  let builder ← visit graph (Fintype.card Node) node (start node)
  return builder.populateThreadRegions.clearComputingData

end ThreadRegionsBuilder

end Cape.ThreadRegions
