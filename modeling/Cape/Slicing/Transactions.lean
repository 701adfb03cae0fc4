import Cape.Slicing.HighestBranch
import Cape.Slicing.Paths
import Cape.Slicing.Preloading
import Cape.Library.Worklist

/-!
# Placing transactions

`processHighestBr` and `placeTransForLoop` put a `startTransaction` before a branch, at an
address-dependent block or before a loop, an `endTransaction` behind the region it opens, and the
preloads of the access behind the start. Marks on blocks and nodes keep a second start from being
inserted where a region was opened before. `preloadTransactionCode` preloads the code that the blocks
of a region can call.

A null pointer that the code follows, or a failed assertion, ends the slicer without output; these
cases are `none` here.
-/

set_option autoImplicit false
set_option linter.unusedSectionVars false

namespace Cape.Slicing

open Cape.Library

namespace RuntimeCall

variable {N : Type}

/-- The name of the called function. -/
def name : RuntimeCall N → String
  | .startTransaction => "_Z16startTransactionv"
  | .endTransaction => "_Z14endTransactionv"
  | .preloadInstAddr _ => "_Z15preloadInstAddrPc"
  | .iterateAllocStack _ => "_Z17iterateAllocStacki"
  | .iterateMallocSet _ => "_Z16iterateMallocSeti"
  | .iterateGlobal _ => "_Z13iterateGlobaliPv"
  | .pushAllocStack _ _ => "_Z14pushAllocStackiliPv"
  | .popAllocStack _ => "_Z13popAllocStacki"
  | .insertMallocSet _ _ => "_Z15insertMallocSetiiPv"
  | .eraseMallocSet _ => "_Z14eraseMallocSetiPv"

/-- The calls that placements insert. -/
def isPlaced : RuntimeCall N → Bool
  | .startTransaction | .endTransaction | .preloadInstAddr _ => true
  | .iterateAllocStack _ | .iterateMallocSet _ | .iterateGlobal _ => true
  | _ => false

end RuntimeCall

/-- The sets `allocs`, `mallocs` and `globals` of an access, each in the order of iteration. -/
structure PreloadSets where
  allocs : List Nat
  mallocs : List Nat
  globals : List GlobalVariable
  deriving DecidableEq

/-- All three sets are empty. -/
def PreloadSets.isEmpty (p : PreloadSets) : Bool :=
  p.allocs.isEmpty && p.mallocs.isEmpty && p.globals.isEmpty

/-- The calls of `addPreLoad`. -/
def PreloadSets.calls {N : Type} (p : PreloadSets) : List (RuntimeCall N) :=
  p.allocs.map .iterateAllocStack ++ p.mallocs.map .iterateMallocSet ++
    p.globals.map .iterateGlobal

/-- A request of a placement: which one, the blocks of the loop, the slice id that marks blocks, what
is preloaded, and the loads and stores it is made for. -/
structure Request (N B : Type) where
  placement : Placement N
  blks : Finset B
  sliceId : Nat
  sets : PreloadSets
  accesses : List N

namespace State

variable {N B T : Type} [DecidableEq N]

/-- Insert `preloadInstAddr` for a function and enter its name into `funcs`. -/
def preloadInstAddr (s : State N B T) (txStart : N) (name : String) : State N B T :=
  { s.insertBefore (.node txStart) (.preloadInstAddr name) with
    funcs := Function.update s.funcs txStart (name :: s.funcs txStart) }

/-- `addTransactionStart`. -/
def addTransactionStart (s : State N B T) (inst : Inst N) : State N B T :=
  s.insertBefore inst .startTransaction

/-- `addPreLoad`. -/
def addPreLoad (s : State N B T) (inst : Inst N) (sets : PreloadSets) : State N B T :=
  sets.calls.foldl (fun s call => s.insertBefore inst call) s

/-- The name is passed over: a debug intrinsic, or entered before. -/
def skips (s : State N B T) (txStart : N) (name : String) : Bool :=
  contains name "llvm.dbg." || decide (name ∈ s.funcs txStart)

end State

namespace DependenceGraph

variable {N B F T : Type} [DecidableEq N] [Fintype B] [DecidableEq B] (G : DependenceGraph N B F T)

/-! ## Code preloading -/

/-- `getCalledFunction()->getName()` of a call, of the program or inserted. -/
def calledFunction : Inst N → Option String
  | .node n =>
      match G.key n with
      | .instruction (.call callee) => callee
      | _ => none
  | .inserted _ call => some call.name

/-- `preloadBB` with at most `depth` nested calls. The code is that before the calls are inserted:
they go into the block of `txStart`, which is not scanned. -/
def preloadBB (code : B → List (Inst N)) (txStart : N) : Nat → B → State N B T → State N B T
  | 0, _, s => s
  | depth + 1, b, s =>
      (code b).foldl (fun s inst =>
        match G.calledFunction inst with
        | none => s
        | some name =>
            if s.skips txStart name then s
            else (G.functionBlocks name).foldl (fun s b => preloadBB code txStart depth b s)
              (s.preloadInstAddr txStart name)) s

/-- `preloadBlockCode`. Each nested call is for another function with a block, so the depth is
enough. -/
def preloadBlockCode (code : B → List (Inst N)) (txStart : N) (b : B) (s : State N B T) :
    State N B T :=
  G.preloadBB code txStart (Fintype.card B + 1) b s

/-- The blocks that the queue of `preloadTransactionCode` goes through, in order. -/
def region (start stop : B) : List B :=
  Worklist.order .queue G.successors (Fintype.card B) ⟨{start, stop}, [start]⟩

/-- `preloadTransactionCode` before the loop: the name of the function itself. -/
def preloadOwnName (start : B) (txStart : N) (s : State N B T) : State N B T :=
  if s.skips txStart (G.functionName start) then s
  else s.preloadInstAddr txStart (G.functionName start)

/-- The loop body of `preloadTransactionCode`: an unmarked block is marked and scanned. -/
def preloadUnmarked (code : B → List (Inst N)) (txStart : N) (s : State N B T) (cur : B) :
    State N B T :=
  if s.slices.block cur = 777 then s
  else G.preloadBlockCode code txStart cur (s.setBlockSlice cur 777)

/-- `preloadTransactionCode`; start and end are asserted to be different. -/
def preloadTransactionCode (start stop : B) (s : State N B T) : Option (State N B T) :=
  if start = stop then none
  else if s.slices.block start = 777 then some s
  else
    (G.lastNode start).map fun txStart =>
      (G.region start stop).foldl (G.preloadUnmarked s.code txStart)
        ((G.preloadOwnName start txStart s).setBlockSlice start 777)

/-! ## Ends -/

/-- Opcode `PHI`. -/
def isPhi : Inst N → Bool
  | .node n => (G.key n).isPhi
  | .inserted _ _ => false

/-- Opcode `Br`. -/
def isBr : Inst N → Bool
  | .node n => (G.key n).isBr
  | .inserted _ _ => false

/-- The instruction of a node, or the first behind it that is no `PHI`. -/
def skipPhis (code : List (Inst N)) (n : N) : Option (Inst N) :=
  ((code.dropWhile fun i => decide (i ≠ .node n)).dropWhile G.isPhi).head?

/-- `S` and `first` in `addTransactionEnd`: the immediate post-dominator of a branch and its first
node, else the block itself and its last node. -/
def endPlace (BB : B) (isBr : Bool) : Option (B × N) :=
  if isBr then
    match G.ipostdom BB with
    | .block S => (G.firstNode S).map fun first => (S, first)
    -- the root has no node
    | _ => none
  else (G.lastNode BB).map fun last => (BB, last)

/-- `addTransactionEnd`. -/
def addTransactionEnd (BB : B) (isBr : Bool) (s : State N B T) : Option (State N B T) :=
  if G.ipostdom BB = .missing then none
  else
    match G.endPlace BB isBr with
    | none => some s
    | some (S, first) =>
        (G.skipPhis (s.code S) first).bind fun inst =>
          if isBr then G.preloadTransactionCode BB S (s.insertBefore inst .endTransaction)
          else some (s.insertBefore inst .endTransaction)

/-- The first immediate post-dominator outside the loop. -/
def outsideIPostDom (loop : Finset B) : Nat → B → IPostDom B
  | 0, _ => .missing
  | fuel + 1, curB =>
      match G.ipostdom curB with
      | .block b => if b ∈ loop then outsideIPostDom loop fuel b else .block b
      | r => r

/-- `addTransactionEndForLoop`. -/
def addTransactionEndForLoop (preh : B) (loop : Finset B) (sliceId : Nat) (s : State N B T) :
    Option (State N B T) :=
  match G.outsideIPostDom loop (Fintype.card B + 1) preh with
  | .block curB =>
      if s.slices.block curB = sliceId then G.preloadTransactionCode preh curB s
      else
        (G.firstNode curB).bind fun first => (G.skipPhis (s.code curB) first).bind fun inst =>
          G.preloadTransactionCode preh curB
            ((s.setBlockSlice curB sliceId).insertBefore inst .endTransaction)
  -- the root has no first node
  | _ => none

/-! ## Placements -/

/-- What both placements do at the instruction they found: at a marked one insert the preloads; else,
when there is something to preload, mark it and insert the start, the end and the preloads. -/
def placeAt (inst : Inst N) (marked : Bool) (mark : State N B T → State N B T)
    (addEnd : State N B T → Option (State N B T)) (sets : PreloadSets) (s : State N B T) :
    Option (State N B T) :=
  if marked then some (s.addPreLoad inst sets)
  else if sets.isEmpty then some s
  else (addEnd ((mark s).addTransactionStart inst)).map fun s => s.addPreLoad inst sets

/-- `processHighestBr`. -/
def processHighestBr (bn : N) (sliceId : Nat) (sets : PreloadSets) (s : State N B T) :
    Option (State N B T) :=
  (G.bblock bn).bind fun CD => (G.skipPhis (s.code CD) bn).bind fun inst =>
    placeAt inst (!decide (s.slices.block CD ≠ sliceId ∧ s.slices.block CD ≠ 777))
      (fun s => s.setBlockSlice CD sliceId) (G.addTransactionEnd CD (G.isBr inst)) sets s

/-- `placeTransForLoop`. -/
def placeTransForLoop (bn : N) (blks : Finset B) (sliceId : Nat) (sets : PreloadSets)
    (s : State N B T) : Option (State N B T) :=
  ((G.bblock bn).bind G.idom).bind fun S => (G.lastNode S).bind fun node =>
    placeAt (.node node) (!decide (s.slices.node node ≠ 888)) (fun s => s.setNodeSlice node 888)
      (G.addTransactionEndForLoop S blks sliceId) sets s

/-- The placement of a request. -/
def place (r : Request N B) (s : State N B T) : Option (State N B T) :=
  match r.placement with
  | .processHighestBr bn => G.processHighestBr bn r.sliceId r.sets s
  | .placeTransForLoop bn => G.placeTransForLoop bn r.blks r.sliceId r.sets s

/-! ## Runs of placements -/

/-- Runs in which each request meets a condition on the history and the state it finds. The history
lists the requests with these states. In between, the passes insert calls of other kinds, mark nodes
and blocks, and give buffer ids. -/
inductive Runs (ok : List (Request N B × State N B T) → State N B T → Request N B → Prop) :
    List (Request N B × State N B T) → State N B T → Prop
  | source (slices : Slices N B) : Runs ok [] (G.source slices)
  | place {h : List (Request N B × State N B T)} {s s' : State N B T} (r : Request N B) :
      Runs ok h s → ok h s r → G.place r s = some s' → Runs ok (h ++ [(r, s)]) s'
  | insertBefore {h : List (Request N B × State N B T)} {s : State N B T} (at_ : Inst N)
      (call : RuntimeCall N) :
      Runs ok h s → call.isPlaced = false → Runs ok h (s.insertBefore at_ call)
  | insertAfter {h : List (Request N B × State N B T)} {s : State N B T} (at_ : Inst N)
      (call : RuntimeCall N) :
      Runs ok h s → call.isPlaced = false → Runs ok h (s.insertAfter at_ call)
  | bookkeeping {h : List (Request N B × State N B T)} {s : State N B T} (slices : Slices N B)
      (bufferId : T → Nat) (allocId : Nat) : Runs ok h s →
      Runs ok h { s with slices := slices, bufferId := bufferId, allocId := allocId }

end DependenceGraph

end Cape.Slicing
