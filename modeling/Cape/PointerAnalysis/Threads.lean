import Cape.PointerAnalysis.PointsToSet

/-!
# Fork and join nodes

What the builder does for `pthread_create` and `pthread_join`. A call of one of them has a FORK or a
JOIN node beside its call node. A fork gets the functions that its start routine points to, one by
one; a join gets those of the forks whose thread handle has a target in common with its own
(`matchJoinToRightCreate`).

A direct call has a call node of its own, whose operands are the nodes of the arguments. A call
through a pointer has its call node before it is known to be such a call: the arguments come behind
the called pointer there.
-/

set_option autoImplicit false

namespace Cape.PointerAnalysis.Threads

open Cape.Library

/-- `getUserData`: a function, by its FUNCTION node, or another value, by the node that holds its
points-to set. -/
inductive Value where
  | function (node : Nat) (defined : Bool)
  | other (representant : PSNode Nat)
deriving DecidableEq

/-- The graph of a function: its entry, the PHI nodes of its arguments and its RETURN nodes. -/
structure PointerSubgraph where
  root : Nat
  arguments : List Nat
  returnNodes : List Nat

/-- The nodes by their numbers, the points-to sets that the analysis has so far, and the lists of
the builder. -/
structure Builder where
  operands : List (List (PSNode Nat))
  successors : Nat → List Nat
  pairedNode : Nat → Nat
  value : Nat → Option Value
  pointsTo : PSNode Nat → PointsToSet Nat
  /-- `getSubgraph`, for a function by its node -/
  subgraph : Nat → Option PointerSubgraph
  /-- for a fork or join, the nodes of the arguments of its call instruction -/
  arguments : Nat → List (Option (PSNode Nat))
  forkNodes : List Nat
  joinNodes : List Nat
  /-- `PSNodeJoin::forks_` -/
  forks : Nat → Finset Nat
  /-- `PSNodeFork::joins` -/
  joins : Nat → Finset Nat
  /-- `PSNodeFork::functions_` -/
  forkFunctions : Nat → Finset Nat
  /-- `PSNodeJoin::functions_` -/
  joinFunctions : Nat → Finset Nat

namespace Builder

/-- The number of the next node. -/
def size (b : Builder) : Nat := b.operands.length

/-- `PS.create`. -/
def create (ops : List (PSNode Nat)) (b : Builder) : Builder :=
  { b with operands := b.operands ++ [ops] }

/-- `getOperand`, where the index is in range. -/
def getOperand (b : Builder) : PSNode Nat → Nat → Option (PSNode Nat)
  | .node n, i => b.operands[n]?.bind fun ops => ops[i]?
  | _, _ => none

def hasOperand (b : Builder) (n : Nat) (x : PSNode Nat) : Bool :=
  b.operands[n]?.any (x ∈ ·)

def addOperand (n : Nat) (x : PSNode Nat) (b : Builder) : Builder :=
  { b with operands := b.operands.modify n (· ++ [x]) }

def addSuccessor (n succ : Nat) (b : Builder) : Builder :=
  { b with successors := Function.update b.successors n (b.successors n ++ [succ]) }

/-- `node->insertAfter(n)`. -/
def insertAfter (node n : Nat) (b : Builder) : Builder :=
  { b with successors :=
      Function.update (Function.update b.successors node (b.successors n)) n [node] }

def getUserData (b : Builder) : PSNode Nat → Option Value
  | .node n => b.value n
  | _ => none

/-- `isa<Function>` of the value of a node. -/
def isFunction (b : Builder) : PSNode Nat → Bool
  | .node n => match b.value n with
    | some (.function _ _) => true
    | _ => false
  | _ => false

/-- The function at a FUNCTION node has a body. -/
def isDefined (b : Builder) (n : Nat) : Bool :=
  match b.value n with
  | some (.function _ defined) => defined
  | _ => false

/-- `getPointsToFunctions`. -/
def getPointsToFunctions (b : Builder) : Value → List Nat
  | .function node _ => [node]
  | .other x => (b.pointsTo x).pointers.filterMap fun p =>
      match p.target with
      | .node n => if b.isFunction p.target then some n else none
      | _ => none

/-! ## Functions of a fork -/

/-- `addArgumentOperands`: the arguments that have nodes, each once. -/
def addArgumentOperands (args : List (Option (PSNode Nat))) (n : Nat) (b : Builder) : Builder :=
  args.foldl (fun b arg => match arg with
    | some x => if b.hasOperand n x then b else b.addOperand n x
    | none => b) b

/-- `addArgumentsOperands` for one call: its arguments from an index on to the PHI nodes. -/
def addArgumentsOperands (args : List (Option (PSNode Nat))) :
    Nat → List Nat → Builder → Option Builder
  | _, [], b => some b
  | index, phi :: phis, b => do
      let arg ← args[index]?
      addArgumentsOperands args (index + 1) phis (b.addArgumentOperands [arg] phi)

/-- `createOrGetSubgraph`, with the graph that is built when there is none. What else comes with it,
as further nodes and forks, comes by other steps. -/
def createOrGetSubgraph (F : Nat) (built : PointerSubgraph) (b : Builder) :
    PointerSubgraph × Builder :=
  match b.subgraph F with
  | some subg => (subg, b)
  | none => (built, { b with subgraph := Function.update b.subgraph F (some built) })

def addFunctionToFork (F fork : Nat) (built : PointerSubgraph) (b : Builder) : Option Builder := do
  let (subg, b) := b.createOrGetSubgraph F built
  let b ← addArgumentsOperands (b.arguments fork) 3 subg.arguments b
  let b := b.addSuccessor fork subg.root
  some { b with
    forkFunctions := Function.update b.forkFunctions fork (insert F (b.forkFunctions fork)) }

/-! ## New forks and joins -/

/-- A FORK node and its call get each other, and the node gets into the list. -/
def enterFork (call fork : Nat) (args : List (Option (PSNode Nat))) (b : Builder) : Builder :=
  { b with
    pairedNode := Function.update (Function.update b.pairedNode call fork) fork call
    arguments := Function.update b.arguments fork args
    forkNodes := b.forkNodes ++ [fork] }

def enterJoin (call join : Nat) (args : List (Option (PSNode Nat))) (b : Builder) : Builder :=
  { b with
    pairedNode := Function.update (Function.update b.pairedNode call join) join call
    arguments := Function.update b.arguments join args
    joinNodes := b.joinNodes ++ [join] }

/-- `createForkNode` for a call node. `spawned` is the function that the call names, if it does so
directly. -/
def createForkNode (call : Nat) (args : List (Option (PSNode Nat)))
    (spawned : Option (Nat × PointerSubgraph)) (b : Builder) : Option (Nat × Builder) := do
  let routine ← (args[2]?).join
  let fork := b.size
  let b := ((b.create [routine]).enterFork call fork args).addArgumentOperands args call
  match spawned with
  | some (F, built) => (b.addFunctionToFork F fork built).map fun b => (fork, b)
  | none => some (fork, b)

def createPthreadCreate (args : List (Option (PSNode Nat)))
    (spawned : Option (Nat × PointerSubgraph)) (b : Builder) : Option Builder := do
  let call := b.size
  let (fork, b) ← (b.create []).createForkNode call args spawned
  some (b.addSuccessor call fork)

def insertPthreadCreateByPtrCall (callsite : Nat) (args : List (Option (PSNode Nat)))
    (spawned : Option (Nat × PointerSubgraph)) (b : Builder) : Option Builder := do
  let (fork, b) ← b.createForkNode callsite args spawned
  some (b.addSuccessor callsite fork)

def createJoinNode (call : Nat) (args : List (Option (PSNode Nat))) (b : Builder) : Nat × Builder :=
  let join := b.size
  (join, ((b.create []).enterJoin call join args).addArgumentOperands args call)

/-- The edge to the join comes with the other edges of the block. -/
def createPthreadJoin (args : List (Option (PSNode Nat))) (b : Builder) : Builder :=
  ((b.create []).createJoinNode b.size args).2

def insertPthreadJoinByPtrCall (callsite : Nat) (args : List (Option (PSNode Nat)))
    (b : Builder) : Builder :=
  let (join, b) := b.createJoinNode callsite args
  b.insertAfter join callsite

/-! ## Processing -/

def addPointsTo (n : PSNode Nat) (p : Pointer Nat) (b : Builder) : Builder × Bool :=
  let added := PointsToSet.add p (b.pointsTo n)
  ({ b with pointsTo := Function.update b.pointsTo n added.1 }, added.2)

/-- One pointer in the FORK case of `processNode`: a new function gets to the fork, with the graph
that is built for it. -/
def processForkPointer (invalidateNodes : Bool) (built : Nat → PointerSubgraph) (fork : Nat)
    (s : Builder × Bool) (p : Pointer Nat) : Option (Builder × Bool) :=
  if !invalidateNodes && !s.1.isFunction p.target then some s
  else
    let added := s.1.addPointsTo (.node fork) p
    if added.2 then
      match p.target with
      | .node F =>
          if added.1.isFunction p.target then
            (added.1.addFunctionToFork F fork (built F)).map (·, true)
          else none
      | _ => some (added.1, true)
    else some (added.1, s.2)

/-- The FORK case of `processNode`. -/
def processFork (invalidateNodes : Bool) (built : Nat → PointerSubgraph) (fork : Nat)
    (b : Builder) : Option (Builder × Bool) := do
  let routine ← b.getOperand (.node fork) 0
  (b.pointsTo routine).pointers.foldlM (processForkPointer invalidateNodes built fork) (b, false)

/-- The wiring of a function's RETURN nodes to a join: over a store of the returned pointer where
the call takes one. -/
def addFunctionToJoin (F join : Nat) (b : Builder) : Option Builder :=
  let b := { b with
    joinFunctions := Function.update b.joinFunctions join (insert F (b.joinFunctions join)) }
  if b.isDefined F then do
    let subg ← b.subgraph F
    let retval ← b.getOperand (.node (b.pairedNode join)) 1
    if retval = .nullptr then
      some (subg.returnNodes.foldl (fun b ret => b.addSuccessor ret join) b)
    else
      let phi := b.size
      let b := b.create []
      let store := b.size
      let b := b.create [.node phi, retval]
      let b := (b.addSuccessor phi store).addSuccessor store join
      some (subg.returnNodes.foldl
        (fun b ret => (b.addSuccessor ret phi).addOperand phi (.node ret)) b)
  else some b

/-- `PSNodeJoin::addFork`. -/
def addFork (fork join : Nat) (b : Builder) : Builder :=
  { b with
    forks := Function.update b.forks join (insert fork (b.forks join))
    joins := Function.update b.joins fork (insert join (b.joins fork)) }

/-- The targets that two sets have in common. -/
def threadHandleIntersection (S T : PointsToSet Nat) : Finset (PSNode Nat) :=
  (S.pointers.map Pointer.target).toFinset ∩ (T.pointers.map Pointer.target).toFinset

/-- One fork in the loop of `matchJoinToRightCreate`. The flag says whether the join got a function
since the loop began, for this fork or for one before it. -/
def matchFork (join : Nat) (joinThreadHandlePtr : PSNode Nat) (s : Builder × Bool) (fork : Nat) :
    Option (Builder × Bool) := do
  let createThreadHandlePtr ← s.1.getOperand (.node (s.1.pairedNode fork)) 0
  if threadHandleIntersection (s.1.pointsTo createThreadHandlePtr)
      (s.1.pointsTo joinThreadHandlePtr) = ∅ then some s
  else
    let func ← s.1.getOperand (.node (s.1.pairedNode fork)) 2
    let V ← s.1.getUserData func
    let s ← (s.1.getPointsToFunctions V).foldlM (fun s F =>
      if F ∈ s.1.joinFunctions join then some s
      else (s.1.addFunctionToJoin F join).map (·, true)) s
    if s.2 then some (s.1.addFork fork join, true) else some s

def matchJoinToRightCreate (join : Nat) (b : Builder) : Option (Builder × Bool) := do
  let loadNode ← b.getOperand (.node (b.pairedNode join)) 0
  let joinThreadHandlePtr ← b.getOperand loadNode 0
  b.forkNodes.foldlM (matchFork join joinThreadHandlePtr) (b, false)

end Builder

end Cape.PointerAnalysis.Threads
