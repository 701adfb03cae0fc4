import Cape.ADT.DisjunctiveIntervalMap

/-!
# Read/write graphs

Nodes that write and read memory, in blocks; the blocks of a procedure are a control flow graph. The
annotations of a node are what its accessors return; those of a call of undefined functions are the
summary of the called values.
-/

set_option autoImplicit false

namespace Cape.MemorySSA

universe u v w

/-- What a def-site is about: the memory that a node allocates, or `UNKNOWN_MEMORY`. -/
inductive Memory (N : Type u) where
  | node (n : N)
  | unknown
deriving DecidableEq

/-- `DefSite`: bytes of a memory. -/
structure DefSite (N : Type u) where
  target : Memory N
  offset : Offset
  len : Offset
deriving DecidableEq

/-- `getInterval`: at the unknown offset the interval is stretched over all bytes. -/
def DefSite.getInterval {N : Type u} (ds : DefSite N) : DiscreteInterval :=
  if ds.offset.isUnknown then ⟨0, .unknown⟩ else ⟨ds.offset, ds.offset + (ds.len - 1)⟩

theorem DefSite.start_le_stop {N : Type u} (ds : DefSite N) :
    ds.getInterval.start ≤ ds.getInterval.stop := by
  unfold getInterval
  split
  · rw [Offset.le_iff]
    exact Nat.zero_le _
  · show ds.offset ≤ ds.offset + (ds.len - 1)
    rw [Offset.le_iff, Offset.toNat_add]
    have := ds.offset.toNat_lt
    omega

/-- `RWCalledValue`: a procedure, or a node that models an undefined function. -/
inductive CalledValue (N : Type u) (S : Type w) where
  | subgraph (s : S)
  | calledValue (n : N)
deriving DecidableEq

/-- `callsDefined`. -/
def callsDefined {N : Type u} {S : Type w} (callees : List (CalledValue N S)) : Bool :=
  callees.any fun c =>
    match c with
    | .subgraph _ => true
    | .calledValue _ => false

/-- `ReadWriteGraph`, after `splitBBlocksOnCalls`. -/
structure ReadWriteGraph (N : Type u) (B : Type v) (S : Type w) where
  getDefines : N → List (DefSite N)
  getOverwrites : N → List (DefSite N)
  getUses : N → List (DefSite N)
  /-- of a call node -/
  getCallees : N → Option (List (CalledValue N S))
  canEscape : N → Bool
  getBBlock : N → Option B
  getNodes : B → List N
  predecessors : B → List B
  getSubgraph : B → S
  bblocks : S → List B
  /-- a call of a defined procedure is alone in its block -/
  call_alone : ∀ b, ∀ n ∈ getNodes b, ∀ callees ∈ getCallees n, callsDefined callees = true →
    getNodes b = [n]

namespace ReadWriteGraph

variable {N : Type u} {B : Type v} {S : Type w} (G : ReadWriteGraph N B S)

def usesUnknown [DecidableEq N] (n : N) : Bool := (G.getUses n).any fun ds => ds.target = .unknown

/-- `initialize`: a block with one node, a call of some defined procedure, is a call block. -/
def getCall (b : B) : Option (N × List (CalledValue N S)) :=
  match G.getNodes b with
  | [n] =>
      match G.getCallees n with
      | some callees => if callsDefined callees then some (n, callees) else none
      | none => none
  | _ => none

/-- `getSinglePredecessor`. -/
def getSinglePredecessor (b : B) : Option B :=
  match G.predecessors b with
  | [p] => some p
  | _ => none

end ReadWriteGraph

end Cape.MemorySSA
