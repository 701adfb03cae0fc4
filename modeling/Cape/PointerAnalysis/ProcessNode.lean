import Cape.PointerAnalysis.PointerGraph
import Mathlib.Data.List.AList

/-!
# Processing one node

The state of the analysis (the points-to sets of the nodes, the memory objects, the flags that an
analysis may set) and `PointerAnalysis::processNode`. How an analysis finds the memory objects for a
pointer (`getMemoryObjects`) is a parameter.

The loops over the set of an operand take the set as it is when they start, since they write to
another node or to memory. `memcpy` may copy inside one object: its loop over the entries of the
source object also comes to the entries that it adds itself behind the current one.
-/

set_option autoImplicit false

namespace Cape.PointerAnalysis

open Cape.Library

universe u v

structure PointerAnalysisOptions where
  fieldSensitivity : Offset := .unknown
  preprocessGeps : Bool := true
  invalidateNodes : Bool := false

/-- `MemoryObject`: the node that allocated it and the pointers stored at each offset. -/
structure MemoryObject (N : Type u) where
  node : PSNode N
  pointsTo : AList fun _ : Offset => PointsToSet N

namespace MemoryObject

variable {N : Type u}

/-- A new object, without pointers. -/
def create (x : PSNode N) : MemoryObject N := ⟨x, ∅⟩

/-- The set at an offset; without an entry it is empty. -/
def getPointsTo (o : MemoryObject N) (off : Offset) : PointsToSet N :=
  (o.pointsTo.lookup off).getD .empty

/-- `pointsTo[off]`, changed by a step. -/
def modify (off : Offset) (f : Step (PointsToSet N)) : Step (MemoryObject N) :=
  Step.within (fun o => o.getPointsTo off) (fun o S => { o with pointsTo := o.pointsTo.insert off S }) f

end MemoryObject

/-- What the analysis changes. Memory objects have keys of some type `κ`. -/
structure State (N : Type u) (κ : Type v) where
  pointsTo : N → PointsToSet N
  objects : κ → Option (MemoryObject N)
  zeroInitialized : N → Bool
  parent : N → Option Nat

/-- Where a points-to set is: at a node (or a static node), or at an offset of an object. -/
inductive Place (N : Type u) (κ : Type v) where
  | node (x : PSNode N)
  | cell (k : κ) (off : Offset)

namespace State

variable {N : Type u} {κ : Type v}

/-- The set of a node. The static nodes have fixed sets. -/
def pts (s : State N κ) : PSNode N → PointsToSet N
  | .node n => s.pointsTo n
  | .nullptr => .singleton .nullPointer
  | .unknownMemory => .singleton .unknownPointer
  | .invalidated => .empty

/-- The set at an offset of an object. -/
def cell (s : State N κ) (k : κ) (off : Offset) : PointsToSet N :=
  (s.objects k).elim .empty fun o => o.getPointsTo off

/-- What is at a place. -/
def read (s : State N κ) : Place N κ → PointsToSet N
  | .node x => s.pts x
  | .cell k off => s.cell k off

/-- The offsets with an entry. -/
def offsets (s : State N κ) (k : κ) : List Offset :=
  (s.objects k).elim [] fun o => o.pointsTo.keys

def isZeroInitialized (s : State N κ) : PSNode N → Bool
  | .node n => s.zeroInitialized n
  | _ => false

variable [DecidableEq N] [DecidableEq κ]

/-! ## The writes -/

def modifyNode (n : N) (f : Step (PointsToSet N)) : Step (State N κ) :=
  Step.within (fun s => s.pointsTo n)
    (fun s S => { s with pointsTo := Function.update s.pointsTo n S }) f

def modifyCell (k : κ) (off : Offset) (f : Step (PointsToSet N)) : Step (State N κ) := fun s =>
  match s.objects k with
  | none => (s, false)
  | some o =>
      ({ s with objects := Function.update s.objects k (some (o.modify off f).1) },
        (o.modify off f).2)

/-- `node->addPointsTo(ptr)`. -/
def addToNode (n : N) (p : Pointer N) : Step (State N κ) := modifyNode n (PointsToSet.add p)

/-- `node->addPointsTo(set)`, the set taken from the same state. -/
def copyToNode (n : N) (src : Place N κ) : Step (State N κ) := fun s =>
  modifyNode n (PointsToSet.union (s.read src)) s

/-- `object->addPointsTo(off, ptr)`. -/
def addToCell (k : κ) (off : Offset) (p : Pointer N) : Step (State N κ) := modifyCell k off (PointsToSet.add p)

/-- `object->addPointsTo(off, set)`: an empty set makes no entry. -/
def copyToCell (k : κ) (off : Offset) (src : Place N κ) : Step (State N κ) := fun s =>
  if (s.read src).isEmpty then (s, false) else modifyCell k off (PointsToSet.union (s.read src)) s

/-- `setZeroInitialized`; nothing is reported. -/
def setZeroInitialized (x : PSNode N) : Step (State N κ) := fun s =>
  match x with
  | .node n => ({ s with zeroInitialized := Function.update s.zeroInitialized n true }, false)
  | _ => (s, false)

def setParent (n : N) (p : Option Nat) : Step (State N κ) := fun s =>
  ({ s with parent := Function.update s.parent n p }, false)

end State

/-- The state in which the graph is built: an allocation and a function point to themselves, a
constant to what it is given. -/
def State.initial {N : Type u} {κ : Type v} (G : PointerGraph N) : State N κ where
  pointsTo := fun n =>
    match G.kind n with
    | .alloc | .function => .singleton ⟨.node n, 0⟩
    | .constant target off => .singleton ⟨target, off⟩
    | _ => .empty
  objects := fun _ => none
  zeroInitialized := G.zeroInitialized
  parent := G.parent

/-- How an analysis finds the memory objects that a node sees through a pointer. It may create
objects. -/
abbrev GetMemoryObjects (N : Type u) (κ : Type v) :=
  N → Pointer N → State N κ → State N κ × List κ

section Process

variable {N : Type u} {κ : Type v} [DecidableEq N] [DecidableEq κ]
variable (G : PointerGraph N) (opts : PointerAnalysisOptions) (objs : GetMemoryObjects N κ)

/-- The target is a function. -/
def isFunction : PSNode N → Bool
  | .node n => G.kind n = .function
  | _ => false

/-- `canBeDereferenced`. -/
def canBeDereferenced (p : Pointer N) : Bool :=
  if !p.isValid || p.isInvalidated || p.isUnknown then false else !isFunction G p.target

/-- Get the objects for a pointer and go on with them. -/
def withObjects (node : N) (p : Pointer N) (f : List κ → Step (State N κ)) : Step (State N κ) :=
  fun s => f (objs node p s).2 (objs node p s).1

/-- The body of `processLoad` for one object. -/
def loadObject (node : N) (p : Pointer N) (o : κ) : Step (State N κ) := fun s =>
  if p.offset.isUnknown then
    -- memory without pointers gives null when it was zeroed; then everything there is loaded
    Step.andThen
      (if (s.offsets o).isEmpty && s.isZeroInitialized p.target then
        State.addToNode node .nullPointer
      else Step.skip)
      (Step.each (fun off => State.copyToNode node (.cell o off)) (s.offsets o)) s
  else
    Step.andThen
      (if p.offset ∈ s.offsets o then State.copyToNode node (.cell o p.offset)
      else if s.isZeroInitialized p.target then State.addToNode node .nullPointer
      else Step.skip)
      (fun s =>
        if Offset.unknown ∈ s.offsets o then State.copyToNode node (.cell o .unknown) s
        else (s, false)) s

/-- The body of `processLoad` for one pointer. The hooks for errors do nothing. -/
def loadPointer (node : N) (p : Pointer N) : Step (State N κ) :=
  if p.isUnknown then State.addToNode node .unknownPointer
  else if !canBeDereferenced G p then Step.skip
  else
    withObjects objs node p fun objects s =>
      if objects.isEmpty then
        if s.isZeroInitialized p.target then State.addToNode node .nullPointer s else (s, false)
      else Step.each (loadObject node p) objects s

/-- `processLoad`. -/
def processLoad (node : N) (operand : PSNode N) : Step (State N κ) := fun s =>
  Step.each (loadPointer G objs node) (s.pts operand).pointers s

/-- The test of `processMemcpy` for an offset of the source object. -/
def isCopied (sptr : Pointer N) (len off : Offset) : Bool :=
  off.isUnknown || sptr.offset.isUnknown ||
    (sptr.offset ≤ off && (len.isUnknown || off.offset - sptr.offset.offset < len.offset))

/-- Where `processMemcpy` puts what is at an offset of the source object. -/
def copiedTo (sptr dptr : Pointer N) (target : PSNode N) (off : Offset) : Offset :=
  if !off.isUnknown && !sptr.offset.isUnknown && !dptr.offset.isUnknown then
    if Offset.unknown.offset - dptr.offset.offset ≤ off.offset - sptr.offset.offset then .unknown
    else
      let newOff : Offset := ⟨off.offset - sptr.offset.offset + dptr.offset.offset⟩
      if ⟨G.getSize target⟩ ≤ newOff ∨ opts.fieldSensitivity ≤ newOff then .unknown else newOff
  else .unknown

/-- Copy what is at one offset of the source object. -/
def copyEntry (sptr dptr : Pointer N) (len : Offset) (dest so : κ) (off : Offset) :
    Step (State N κ) := fun s =>
  if isCopied sptr len off then
    State.copyToCell dest
      (copiedTo G opts sptr dptr ((s.objects dest).elim .nullptr MemoryObject.node) off)
      (.cell so off) s
  else (s, false)

/-- Copy what is in the source object. There are no more offsets than the fuel. -/
def copyEntries (sptr dptr : Pointer N) (len : Offset) (dest so : κ) : Step (State N κ) :=
  Step.scan (fun s => s.offsets so) (copyEntry G opts sptr dptr len dest so) (2 ^ 64) none

/-- The source is copied as a whole onto an object of its size. -/
def copiesWhole (sptr dptr : Pointer N) (len : Offset) : Bool :=
  (⟨G.getSize sptr.target⟩ : Offset) ≠ .unknown && G.getSize sptr.target = G.getSize dptr.target &&
    len = ⟨G.getSize sptr.target⟩ && sptr.offset = 0

/-- `processMemcpy` for the objects of one source and one destination pointer. -/
def processMemcpyObjects (srcObjects destObjects : List κ) (sptr dptr : Pointer N) (len : Offset) :
    Step (State N κ) := fun s =>
  let zeroed := s.isZeroInitialized sptr.target
  let whole := copiesWhole G sptr dptr len
  Step.andThen
    (if zeroed && whole then State.setZeroInitialized dptr.target else Step.skip)
    (Step.each (fun dest =>
      Step.andThen
        (if zeroed && !whole then State.addToCell dest .unknown .nullPointer else Step.skip)
        (Step.each (fun so => copyEntries G opts sptr dptr len dest so) srcObjects))
      destObjects) s

/-- The body of `processMemcpy` for one destination pointer. -/
def memcpyDest (node : N) (sptr : Pointer N) (len : Offset) (srcObjects : List κ)
    (dptr : Pointer N) : Step (State N κ) :=
  if !canBeDereferenced G dptr then Step.skip
  else
    withObjects objs node dptr fun destObjects =>
      processMemcpyObjects G opts srcObjects destObjects sptr dptr len

/-- The body of `processMemcpy` for one source pointer. -/
def memcpySource (node : N) (destination : PSNode N) (len : Offset) (sptr : Pointer N) :
    Step (State N κ) :=
  if !canBeDereferenced G sptr then Step.skip
  else
    withObjects objs node sptr fun srcObjects s =>
      Step.each (memcpyDest G opts objs node sptr len srcObjects) (s.pts destination).pointers s

/-- `processMemcpy`. The source aborts where a pointer has no objects at all. -/
def processMemcpy (node : N) (source destination : PSNode N) (len : Offset) :
    Step (State N κ) := fun s =>
  Step.each (memcpySource G opts objs node destination len) (s.pts source).pointers s

/-- The pointer that `processGep` makes of a pointer. -/
def gepPointer (p : Pointer N) (off : Offset) : Pointer N :=
  let newOffset : Offset :=
    if p.offset.isUnknown || off.isUnknown then .unknown else ⟨p.offset.offset + off.offset⟩
  if (newOffset = 0 ∨ newOffset < ⟨G.getSize p.target⟩) ∧ newOffset < opts.fieldSensitivity then
    ⟨p.target, newOffset⟩
  else ⟨p.target, .unknown⟩

/-- `processGep`. -/
def processGep (node : N) (source : PSNode N) (off : Offset) : Step (State N κ) := fun s =>
  Step.each (fun p => State.addToNode node (gepPointer G opts p off)) (s.pts source).pointers s

/-- The body of the loop of a store. -/
def storePointer (node : N) (value : PSNode N) (p : Pointer N) : Step (State N κ) :=
  if !canBeDereferenced G p then Step.skip
  else
    withObjects objs node p fun objects =>
      Step.each (fun o => State.copyToCell o p.offset (.node value)) objects

/-- The loop of a store. -/
def processStore (node : N) (value address : PSNode N) : Step (State N κ) := fun s =>
  Step.each (storePointer G objs node value) (s.pts address).pointers s

/-- The loop of a PHI node over its operands. -/
def processPhi (node : N) (operands : List (PSNode N)) : Step (State N κ) :=
  Step.each (fun op => State.copyToNode node (.node op)) operands

/-- A returned pointer to a local of the procedure is invalidated. -/
def invalidateReturned (node : N) (operands : List (PSNode N)) : Step (State N κ) :=
  Step.each (fun op s =>
    Step.each (fun p =>
      match p.target with
      | .node n =>
          if canBeDereferenced G p && !G.isHeap n && !G.isGlobal n then
            State.addToNode node ⟨.invalidated, 0⟩
          else Step.skip
      | _ => Step.skip) (s.pts op).pointers s) operands

/-- The pointers that a call or a fork may call. The hooks that adjust the graph do nothing. -/
def processCalled (node : N) (operand : PSNode N) : Step (State N κ) := fun s =>
  Step.each (fun p =>
    if !opts.invalidateNodes && !isFunction G p.target then Step.skip else State.addToNode node p)
    (s.pts operand).pointers s

/-- `processNode`. -/
def processNode (node : N) : Step (State N κ) :=
  match G.kind node with
  | .load operand => processLoad G objs node operand
  | .store value address => processStore G objs node value address
  | .invalidateObject _ | .free _ => Step.skip
  | .invalidateLocals operand =>
      match operand with
      | .node op =>
          match G.successors op with
          | [succ] => fun s => State.setParent node (s.parent succ) s
          | _ => Step.skip
      | _ => Step.skip
  | .gep source off => processGep G opts node source off
  | .cast operand => State.copyToNode node (.node operand)
  | .constant _ _ => Step.skip
  | .callReturn operands =>
      if opts.invalidateNodes then
        Step.andThen (invalidateReturned G node operands) (processPhi node operands)
      else processPhi node operands
  | .ret operands => processPhi node operands
  | .phi operands => processPhi node operands
  | .callFuncptr operand => processCalled G opts node operand
  | .fork operand => processCalled G opts node operand
  | .join => Step.skip
  | .memcpy source destination len => processMemcpy G opts objs node source destination len
  | .alloc | .function | .call | .entry | .noop => Step.skip

section Kinds

variable {G opts objs} {node : N} {operand : PSNode N}

theorem processNode_load (h : G.kind node = .load operand) :
    processNode G opts objs node = processLoad G objs node operand := by
  rw [processNode, h]

theorem processNode_store {value address : PSNode N} (h : G.kind node = .store value address) :
    processNode G opts objs node = processStore G objs node value address := by
  rw [processNode, h]

theorem processNode_gep {source : PSNode N} {off : Offset} (h : G.kind node = .gep source off) :
    processNode G opts objs node = processGep G opts node source off := by
  rw [processNode, h]

theorem processNode_cast (h : G.kind node = .cast operand) :
    processNode G opts objs node = State.copyToNode node (.node operand) := by
  rw [processNode, h]

theorem processNode_phi {operands : List (PSNode N)} (h : G.kind node = .phi operands) :
    processNode G opts objs node = processPhi node operands := by
  rw [processNode, h]

theorem processNode_memcpy {source destination : PSNode N} {len : Offset}
    (h : G.kind node = .memcpy source destination len) :
    processNode G opts objs node = processMemcpy G opts objs node source destination len := by
  rw [processNode, h]

end Kinds

end Process

end Cape.PointerAnalysis
