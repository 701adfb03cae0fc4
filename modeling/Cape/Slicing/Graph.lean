import Cape.Library.Dominance

/-!
# The dependence graph as the slicer sees it

`include/dg/Slicing.h` and `include/dg/legacy/NodesWalk.h` read an LLVM dependence graph: nodes
that carry an LLVM value (`LLVMNode`), basic blocks with control-flow, dominator and
control-dependence edges (`BBlock`), and the results of the pointer analysis. `DependenceGraph`
holds what these files read. `N`, `B`, `F` and `T` are the nodes, the blocks, the graphs of single
functions and the targets of points-to sets.

An instruction has one node, so a node also stands for its instruction.
-/

set_option autoImplicit false

namespace Cape.Slicing

open Cape.Library

/-- `llvm::GlobalVariable`: its name, `hasAttribute("secret")`, and the allocation size of its
value type. -/
structure GlobalVariable where
  name : String
  isSecret : Bool
  typeAllocSize : Nat
  deriving DecidableEq

/-- Instruction opcodes as far as the slicer tells them apart. `br` carries `isConditional()`;
`switch` is any other terminator with several targets; `call` carries the name of
`getCalledFunction()`, which an indirect call does not have. -/
inductive Opcode where
  | load
  | store
  | br (conditional : Bool)
  | switch
  | ret
  | call (callee : Option String)
  | phi
  | alloca
  | other
  deriving DecidableEq

/-- `LLVMNode::getKey()`: the value of a node. Formal and actual parameters of other kinds, and
artificial nodes, are `other`. -/
inductive Key where
  | function (name : String)
  | instruction (op : Opcode)
  | globalVariable (gv : GlobalVariable)
  | other
  deriving DecidableEq

namespace Key

/-- `isa<Function>`. -/
def isFunction : Key → Bool
  | function _ => true
  | _ => false

/-- `isa<Instruction>`. -/
def isInstruction : Key → Bool
  | instruction _ => true
  | _ => false

/-- `isa<CallInst>`. -/
def isCall : Key → Bool
  | instruction (.call _) => true
  | _ => false

/-- `isa<ReturnInst>`. -/
def isReturn : Key → Bool
  | instruction .ret => true
  | _ => false

/-- Opcode `Br`, conditional or not. -/
def isBr : Key → Bool
  | instruction (.br _) => true
  | _ => false

/-- A `BranchInst` with `isConditional()`. -/
def isConditionalBr : Key → Bool
  | instruction (.br c) => c
  | _ => false

/-- A terminator that decides between several targets. -/
def isConditionalTerminator : Key → Bool
  | instruction (.br c) => c
  | instruction .switch => true
  | _ => false

/-- Opcode `PHI`. -/
def isPhi : Key → Bool
  | instruction .phi => true
  | _ => false

/-- The operand that `markSlice` takes for the address: 0 of a load, 1 of a store. -/
def addressOperand : Key → Option Nat
  | instruction .load => some 0
  | instruction .store => some 1
  | _ => none

theorem isInstruction_of_isReturn (k : Key) (h : k.isReturn = true) : k.isInstruction = true := by
  cases k with
  | instruction op => rfl
  | _ => cases h

end Key

/-- What the immediate post-dominator pointer of a block can be: never set, the keyless root that
`computePostDominators` hangs exits under, or a block of the function. -/
inductive IPostDom (B : Type) where
  | missing
  | root
  | block (b : B)
  deriving DecidableEq

/-- User data of a points-to target: `getUserData<Value>()`. -/
inductive UserData (N : Type) where
  | null
  | globalVariable (gv : GlobalVariable)
  | instruction (n : N)
  | other

/-- Blocks and nodes of control-flow graphs. The keyless root above a function's entry in the
dominator tree has no node, no predecessor and slice id 0; it is left out, so the entry has no
immediate dominator. -/
structure BlockGraph (N B : Type) where
  key : N → Key
  nodes : B → List N
  successors : B → List B
  predecessors : B → List B
  idom : B → Option B
  ipostdom : B → IPostDom B
  /-- `getParent()->getName()` of a block. -/
  functionName : B → String
  /-- The blocks of the function of that name, in order; a declaration has none. -/
  functionBlocks : String → List B

namespace BlockGraph

variable {N B : Type} (G : BlockGraph N B)

/-- `getFirstNode()`. -/
def firstNode (b : B) : Option N := (G.nodes b).head?

/-- `getLastNode()`. -/
def lastNode (b : B) : Option N := (G.nodes b).getLast?

/-- Control flow between blocks. -/
abbrev Flow : B → B → Prop := Edge G.successors

/-- Predecessor lists that are the converse of the successor lists, and a correct dominator tree.
`DominatorTree` has no node for an unreachable block, whose `getIDom()` stays null. -/
structure CorrectDominators (entry : B) : Prop where
  converse : ∀ a b, a ∈ G.predecessors b ↔ b ∈ G.successors a
  idom : ImmediateDominator G.Flow entry G.idom
  unreachable : ∀ b, ¬ FromRoot G.Flow entry b → G.idom b = none

end BlockGraph

/-- The dependence graph of a program with the points-to sets the slicer asks for. -/
structure DependenceGraph (N B F T : Type) extends BlockGraph N B where
  /-- `getBBlock()`. -/
  bblock : N → Option B
  /-- `getDG()`. -/
  dg : N → Option F
  /-- `getEntry()` of the graph of a function. -/
  entry : F → Option N
  /-- `getNode(k)` of the graph of a function for the key of a node. -/
  getNode : F → N → Option N
  control : N → List N
  revControl : N → List N
  data : N → List N
  revData : N → List N
  use : N → List N
  user : N → List N
  interference : N → List N
  controlDependence : B → List B
  revControlDependence : B → List B
  userData : T → UserData N
  /-- The targets of the points-to set of an operand, in the order of iteration. -/
  pointsTo : N → Nat → List T

namespace DependenceGraph

variable {N B F T : Type} (G : DependenceGraph N B F T)

/-- The points-to set of the operand holds a global variable with attribute `secret`. -/
def pointsToSecret (n : N) (operand : Nat) : Bool :=
  (G.pointsTo n operand).any fun t =>
    match G.userData t with
    | .globalVariable gv => gv.isSecret
    | _ => false

/-- The entry node of the function a node belongs to. -/
def entryOf (n : N) : Option N := (G.dg n).bind G.entry

end DependenceGraph

/-- `getSlice()` of nodes and of blocks. -/
structure Slices (N B : Type) where
  node : N → Nat
  block : B → Nat

namespace Slices

variable {N B : Type}

/-- `setSlice` of a node. -/
def setNode [DecidableEq N] (m : Slices N B) (n : N) (id : Nat) : Slices N B :=
  { m with node := Function.update m.node n id }

/-- `setSlice` of a block. -/
def setBlock [DecidableEq B] (m : Slices N B) (b : B) (id : Nat) : Slices N B :=
  { m with block := Function.update m.block b id }

@[simp] theorem node_setNode_self [DecidableEq N] (m : Slices N B) (n : N) (id : Nat) :
    (m.setNode n id).node n = id := Function.update_self _ _ _

@[simp] theorem node_setNode_of_ne [DecidableEq N] (m : Slices N B) {n x : N} (h : x ≠ n)
    (id : Nat) : (m.setNode n id).node x = m.node x := Function.update_of_ne h _ _

@[simp] theorem node_setBlock [DecidableEq B] (m : Slices N B) (b : B) (id : Nat) :
    (m.setBlock b id).node = m.node := rfl

end Slices

end Cape.Slicing
