import Cape.Library.FallibleLoop
import Mathlib.Data.Finset.Card

/-!
# Building functions and their calls

How the builder makes the nodes of functions and connects calls with the functions that they call:
actual arguments become operands of the PHI nodes of the formal ones, RETURN nodes become operands of
the CALL_RETURN node. While the graph is built in advance the calls of a function are looked up among
its uses, when all functions are built; during the analysis each call is connected when it is built,
or when a function pointer is found to point to a function.

A node is named by what it is made for, since an instruction is built once.
-/

set_option autoImplicit false

namespace Cape.PointerAnalysis.Interprocedural

universe u v

/-- An argument of a call. -/
inductive Value (Fn : Type u) (I : Type v) where
  | constant (c : Nat)
  | argument (F : Fn) (index : Nat)
  | instruction (i : I)
deriving DecidableEq

/-- An instruction that gets nodes. The called function may be behind a cast of its pointer. -/
inductive Instruction (Fn : Type u) (I : Type v) where
  | call (callee : Fn) (casted : Bool) (args : List (Value Fn I))
  | callPointer (args : List (Value Fn I))
  | ret
  | other

inductive Node (Fn : Type u) (I : Type v) where
  | constant (c : Nat)
  | argument (F : Fn) (index : Nat)
  | vararg (F : Fn)
  | callReturn (i : I)
  | ret (i : I)
  | other (i : I)
deriving DecidableEq

namespace Instruction

variable {Fn : Type u} {I : Type v}

def args : Instruction Fn I → List (Value Fn I)
  | call _ _ args => args
  | callPointer args => args
  | _ => []

end Instruction

/-- The defined functions of a module: the blocks that the entry reaches, in the order of the dominator
tree, with the instructions that are relevant. Instructions may be in blocks that are not reached. -/
structure Module (Fn : Type u) (I : Type v) where
  formals : Fn → Nat
  isVarArg : Fn → Bool
  blocks : Fn → List (List I)
  instructions : List I
  code : I → Instruction Fn I
  mem_instructions : ∀ F, ∀ i ∈ (blocks F).flatten, i ∈ instructions
  /-- a value is defined before it is used, in the same function -/
  dominated : ∀ F l₁ i l₂, (blocks F).flatten = l₁ ++ i :: l₂ → ∀ v ∈ (code i).args, match v with
    | .constant _ => True
    | .argument G _ => G = F
    | .instruction j => j ∈ l₁ ∨ ∀ G, j ∉ (blocks G).flatten

/-- What the builder has made. -/
structure State (Fn : Type u) (I : Type v) where
  /-- `ad_hoc_building` -/
  adHoc : Bool
  /-- `subgraphs_map` -/
  subgraphs : List Fn
  /-- the instructions in `nodes_map` -/
  nodes : Finset I
  /-- `PointerSubgraph::returnNodes`, by the instructions -/
  returnNodes : Fn → List I
  operands : Node Fn I → List (Node Fn I)
  /-- of a call: `callees`, and `returns` of its CALL_RETURN node -/
  callees : I → List Fn
  returns : I → List I
  /-- of an entry: `callers`, and of a RETURN node: its return sites -/
  callers : Fn → List I
  returnSites : I → List I

section

variable {Fn : Type u} {I : Type v}

namespace State

/-- Nothing is built. -/
def empty : State Fn I :=
  ⟨false, [], ∅, fun _ => [], fun _ => [], fun _ => [], fun _ => [], fun _ => [], fun _ => []⟩

end State

variable [DecidableEq Fn] [DecidableEq I]

/-- An element is added to the list of a key if it is not there. -/
def addTo {α β : Type*} [DecidableEq α] [DecidableEq β] (g : α → List β) (a : α) (b : β) :
    α → List β :=
  if b ∈ g a then g else Function.update g a (g a ++ [b])

namespace State

def addNode (i : I) (s : State Fn I) : State Fn I := { s with nodes := insert i s.nodes }

/-- `addOperand`, behind a test with `hasOperand`. -/
def addOperand (n x : Node Fn I) (s : State Fn I) : State Fn I :=
  { s with operands := addTo s.operands n x }

/-- `getAndConnectSubgraph`, the edges between call and entry. -/
def connect (i : I) (F : Fn) (s : State Fn I) : State Fn I :=
  { s with callees := addTo s.callees i F, callers := addTo s.callers F i }

end State

namespace Module

variable (M : Module Fn I)

/-- The node that stands for an instruction: for a call that of what it returns. -/
def representant (i : I) : Node Fn I :=
  match M.code i with
  | .call _ _ _ | .callPointer _ => .callReturn i
  | .ret => .ret i
  | .other => .other i

/-- `tryGetOperand`. -/
def tryGetOperand (s : State Fn I) : Value Fn I → Option (Node Fn I)
  | .constant c => some (.constant c)
  | .argument F k => if F ∈ s.subgraphs then some (.argument F k) else none
  | .instruction i => if i ∈ s.nodes then some (M.representant i) else none

/-- `F->use_begin()` to `F->use_end()`: the calls whose `getCalledFunction` is the function. -/
def users (F : Fn) : List I :=
  M.instructions.filter fun i => match M.code i with
    | .call G casted _ => G = F && !casted
    | _ => false

/-! ## Operands between functions -/

/-- `addArgumentOperands(CI, arg, idx)`. -/
def addArgumentOperands (args : List (Value Fn I)) (arg : Node Fn I) (idx : Nat) (s : State Fn I) :
    Option (State Fn I) := do
  let v ← args[idx]?
  match M.tryGetOperand s v with
  | some op => some (s.addOperand arg op)
  | none => some s

/-- `addArgumentsOperands(F, CI)`: for one call, or for all uses. -/
def addArgumentsOperands (F : Fn) (call : Option I) (s : State Fn I) : Option (State Fn I) :=
  (List.range (M.formals F)).foldlM (fun s k =>
    (call.elim (M.users F) fun i => [i]).foldlM (fun s i =>
      M.addArgumentOperands (M.code i).args (.argument F k) k s) s) s

/-- The indices of `addVariadicArgumentOperands`, which begin with the last formal argument. Without
one the unsigned index is too large for any. -/
def variadicIndices (F : Fn) (args : List (Value Fn I)) : List Nat :=
  if M.formals F = 0 then []
  else (List.range args.length).filter (M.formals F - 1 ≤ ·)

def addVariadicArgumentOperands (F : Fn) (call : Option I) (s : State Fn I) : Option (State Fn I) :=
  (call.elim (M.users F) fun i => [i]).foldlM (fun s i =>
    (M.variadicIndices F (M.code i).args).foldlM (fun s k =>
      M.addArgumentOperands (M.code i).args (.vararg F) k s) s) s

/-- `addReturnNodeOperand(callNode, ret)`. -/
def addReturnNodeOperand (ret : I) (s : State Fn I) (i : I) : State Fn I :=
  let s := s.addOperand (.callReturn i) (.ret ret)
  { s with returnSites := addTo s.returnSites ret i, returns := addTo s.returns i ret }

/-- `addReturnNodesOperands`: for one call, or for all uses that are built. -/
def addReturnNodesOperands (F : Fn) (call : Option I) (s : State Fn I) : State Fn I :=
  (s.returnNodes F).foldl (fun s ret =>
    (call.elim ((M.users F).filter (· ∈ s.nodes)) fun i => [i]).foldl (addReturnNodeOperand ret) s) s

/-- `addInterproceduralOperands`. -/
def addInterproceduralOperands (F : Fn) (call : Option I) (s : State Fn I) : Option (State Fn I) := do
  let s ← M.addArgumentsOperands F call s
  let s ← (if M.isVarArg F then M.addVariadicArgumentOperands F call s else some s)
  some (M.addReturnNodesOperands F call s)

/-! ## Functions -/

/-- `createCallToFunction`. -/
def createCallToFunction (createOrGetSubgraph : Fn → State Fn I → Option (State Fn I)) (i : I) (F : Fn)
    (s : State Fn I) : Option (State Fn I) := do
  let s ← createOrGetSubgraph F s
  let s := s.connect i F
  let s ← (if s.adHoc then M.addInterproceduralOperands F (some i) s else some s)
  some (s.addNode i)

def buildInstruction (createOrGetSubgraph : Fn → State Fn I → Option (State Fn I)) (s : State Fn I)
    (i : I) : Option (State Fn I) :=
  match M.code i with
  | .call F _ _ => M.createCallToFunction createOrGetSubgraph i F s
  | _ => some (s.addNode i)

/-- The last node of a block is a RETURN node. -/
def endsWith (block : List I) : Option I :=
  block.getLast?.filter fun i => match M.code i with
    | .ret => true
    | _ => false

/-- One block of `buildFunction`: `buildPointerGraphBlock`, then its RETURN node is gathered. -/
def buildBlock (createOrGetSubgraph : Fn → State Fn I → Option (State Fn I)) (F : Fn) (s : State Fn I)
    (block : List I) : Option (State Fn I) := do
  let s ← block.foldlM (M.buildInstruction createOrGetSubgraph) s
  match M.endsWith block with
  | some i => some { s with returnNodes := addTo s.returnNodes F i }
  | none => some s

def buildFunction (createOrGetSubgraph : Fn → State Fn I → Option (State Fn I)) (F : Fn)
    (s : State Fn I) : Option (State Fn I) :=
  (M.blocks F).foldlM (M.buildBlock createOrGetSubgraph F) { s with subgraphs := s.subgraphs ++ [F] }

/-- `createOrGetSubgraph`, to a depth of nested functions. -/
def createOrGetSubgraph : Nat → Fn → State Fn I → Option (State Fn I)
  | 0, _, _ => none
  | depth + 1, F, s =>
      if F ∈ s.subgraphs then some s else M.buildFunction (createOrGetSubgraph depth) F s

/-- The operands in `addProgramStructure`. -/
def addProgramStructure (s : State Fn I) : Option (State Fn I) :=
  s.subgraphs.foldlM (fun s F => M.addInterproceduralOperands F none s) s

/-- `buildLLVMPointerGraph`. -/
def buildLLVMPointerGraph (depth : Nat) (entry : Fn) : Option (State Fn I) := do
  let s ← M.buildFunction (M.createOrGetSubgraph depth) entry .empty
  let s ← M.addProgramStructure s
  some { s with adHoc := true }

/-- `insertFunctionCall`, when the called pointer points to a function. -/
def insertFunctionCall (depth : Nat) (i : I) (F : Fn) (s : State Fn I) : Option (State Fn I) := do
  let s ← M.createOrGetSubgraph depth F s
  M.addInterproceduralOperands F (some i) (s.connect i F)

end Module

end

end Cape.PointerAnalysis.Interprocedural
