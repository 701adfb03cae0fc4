import Cape.Library.DepthFirst
import Cape.MemorySSA.Definitions

/-!
# Memory SSA on demand

`MemorySSATransformation` inside one procedure: the definitions of a use are searched in its block,
and for the bytes that are not overwritten there in the blocks before it. In a block with several
predecessors a PHI node is created and registered for the bytes that were sought, and its operands are
searched in the predecessors. Blocks are numbered when they are first looked at, and what is found
stays there for later queries.

A search has a bound on its depth; `none` means that the bound was reached.
-/

set_option autoImplicit false

namespace Cape.MemorySSA

open Cape.Library

universe u v w

/-- `RWNode`: a node that the graph was built with, or the `i`-th PHI or MU node created since. -/
inductive RWNode (N : Type u) where
  | node (n : N)
  | phi (i : Nat)
  | mu (i : Nat)
deriving DecidableEq

/-- `isPhi`. -/
def RWNode.isPhi {N : Type u} : RWNode N → Bool
  | .phi _ => true
  | _ => false

/-- What `MemorySSATransformation` has found. -/
structure Transformation (N : Type u) (B : Type v) where
  /-- `_phis`: what each PHI node overwrites -/
  phis : List (DefSite (RWNode N))
  /-- what each MU node uses, and its block -/
  mus : List (DefSite (RWNode N) × B)
  nodes : B → List (RWNode N)
  /-- `none`: not initialized -/
  defuse : RWNode N → Option (List (RWNode N))
  /-- `none`: not processed -/
  definitions : B → Option (Definitions (RWNode N))

namespace Transformation

variable {N : Type u} {B : Type v} {S : Type w} [DecidableEq N] [DecidableEq B] [DecidableEq S]
variable (G : ReadWriteGraph (RWNode N) B S)

/-- After `initialize`. -/
def initial : Transformation N B where
  phis := []
  mus := []
  nodes := G.getNodes
  defuse := fun _ => none
  definitions := fun _ => none

omit [DecidableEq N] [DecidableEq B] [DecidableEq S] in
/-- `getAnnotations`. -/
def getAnnotations (s : Transformation N B) : RWNode N → Annotations (RWNode N)
  | .node n => ⟨G.getDefines (.node n), G.getOverwrites (.node n), G.getUses (.node n)⟩
  | .phi i => ⟨[], s.phis[i]?.toList, []⟩
  | .mu i => ⟨[], [], (s.mus[i]?.map Prod.fst).toList⟩

/-- `getBBlock`, of a node that is no PHI. -/
def getBBlock (s : Transformation N B) : RWNode N → Option B
  | .mu i => s.mus[i]?.map Prod.snd
  | x => G.getBBlock x

/-- `addDefUse`. -/
def addDefUse (x : RWNode N) (defs : List (RWNode N)) (s : Transformation N B) :
    Transformation N B :=
  { s with
    defuse := Function.update s.defuse x
      (some (defs.foldl (fun l d => if d ∈ l then l else l ++ [d]) ((s.defuse x).getD []))) }

/-! ## Blocks -/

/-- `update` of the definitions by nodes, one after another. -/
def number (s : Transformation N B) (l : List (RWNode N)) : Definitions (RWNode N) :=
  Definitions.run (s.getAnnotations G) (l.map fun x => (x, none))

/-- `getBBlockDefinitions`, with `performLvn` for a block that was not processed. -/
def getBBlockDefinitions (b : B) (s : Transformation N B) :
    Transformation N B × Definitions (RWNode N) :=
  match s.definitions b with
  | some D => (s, D)
  | none =>
      let D := s.number G (s.nodes b)
      ({ s with definitions := Function.update s.definitions b (some D) }, D)

/-- `findDefinitionsInBlock`: the nodes before the use. -/
def findDefinitionsInBlock (s : Transformation N B) (b : B) (use : RWNode N) :
    Definitions (RWNode N) :=
  s.number G ((s.nodes b).takeWhile (· ≠ use))

/-! ## PHI nodes -/

omit [DecidableEq N] [DecidableEq B] in
/-- `createPhi`. -/
def createPhi (ds : DefSite (RWNode N)) (s : Transformation N B) : Transformation N B × RWNode N :=
  ({ s with phis := s.phis ++ [ds] }, .phi s.phis.length)

/-- The PHI node defines an interval that was uncovered; so do the writes to unknown memory. -/
def coverInterval (phi : RWNode N) (t : Memory (RWNode N)) (D : Definitions (RWNode N))
    (J : DiscreteInterval) : Definitions (RWNode N) :=
  let uds := DefSite.ofInterval t J
  let definitions := D.definitions.add uds phi
  { D with
    definitions :=
      if D.unknownWrites.isEmpty then definitions else definitions.addNodes uds D.unknownWrites
    kills := D.kills.add uds phi }

/-- The PHI node defines what is uncovered of its def-site. -/
def cover (phi : RWNode N) (ds : DefSite (RWNode N)) (D : Definitions (RWNode N)) :
    Definitions (RWNode N) :=
  (D.uncovered ds).foldl (coverInterval phi ds.target) D

/-- `createPhi` with the definitions of a block. -/
def createPhiIn (b : B) (ds : DefSite (RWNode N)) (s : Transformation N B) :
    Transformation N B × RWNode N :=
  let (s, D) := getBBlockDefinitions G b s
  let (s, phi) := createPhi ds s
  ({ s with definitions := Function.update s.definitions b (some (cover phi ds D)) }, phi)

/-- `createAndPlacePhi`. -/
def createAndPlacePhi (b : B) (ds : DefSite (RWNode N)) (s : Transformation N B) :
    Transformation N B × RWNode N :=
  let (s, phi) := createPhiIn G b ds s
  ({ s with nodes := Function.update s.nodes b (phi :: s.nodes b) }, phi)

/-- `canBeInput`. -/
def canBeInput (t : Memory (RWNode N)) (b : B) : Bool :=
  match t with
  | .node x => G.canEscape x || (G.getBBlock x).any fun b' => G.getSubgraph b' ≠ G.getSubgraph b
  | .unknown => false

/-! ## The search -/

section Search

variable (search : B → DefSite (RWNode N) → Transformation N B →
  Option (Transformation N B × List (RWNode N)))

/-- `findPhiDefinitions`: the operands are what is found in the blocks. -/
def findPhiDefinitions (phi : RWNode N) (blocks : List B) (ds : DefSite (RWNode N))
    (s : Transformation N B) : Option (Transformation N B) :=
  (blocks.foldlM (fun (acc : Transformation N B × List (RWNode N)) b =>
    (search b ds acc.1).map fun found => (found.1, acc.2 ∪ found.2)) (s, [])).map fun acc =>
      acc.1.addDefUse phi acc.2

/-- `findDefinitionsInMultiplePredecessors`: a PHI node, or one for the input of the procedure. Its
callers would be searched for the latter; there are none. -/
def findDefinitionsInMultiplePredecessors (b : B) (ds : DefSite (RWNode N))
    (s : Transformation N B) : Option (Transformation N B × List (RWNode N)) :=
  if (G.predecessors b).isEmpty then
    if canBeInput G ds.target b then
      let (s, phi) := createPhiIn G b ds s
      some (s, [phi])
    else some (s, [])
  else
    let (s, phi) := createAndPlacePhi G b ds s
    (findPhiDefinitions search phi (G.predecessors b) ds s).map fun s => (s, [phi])

/-- `findDefinitionsInPredecessors`. -/
def findDefinitionsInPredecessors (b : B) (ds : DefSite (RWNode N)) (s : Transformation N B) :
    Option (Transformation N B × List (RWNode N)) :=
  match G.getSinglePredecessor b with
  | some p => search p ds s
  | none => findDefinitionsInMultiplePredecessors G search b ds s

/-- `addUncoveredFromPredecessors`. -/
def addUncoveredFromPredecessors (b : B) (D : Definitions (RWNode N)) (ds : DefSite (RWNode N))
    (defs : List (RWNode N)) (s : Transformation N B) :
    Option (Transformation N B × List (RWNode N)) :=
  (D.uncovered ds).foldlM (fun (acc : Transformation N B × List (RWNode N)) J =>
    (findDefinitionsInPredecessors G search b (DefSite.ofInterval ds.target J) acc.1).map
      fun found => (found.1, acc.2 ++ found.2)) (s, defs)

end Search

/-- `findDefinitions` of a def-site at the end of a block. -/
def findDefinitionsAt : Nat → B → DefSite (RWNode N) → Transformation N B →
    Option (Transformation N B × List (RWNode N))
  | 0, _, _, _ => none
  | fuel + 1, b, ds, s =>
      let (s, D) := getBBlockDefinitions G b s
      addUncoveredFromPredecessors G (findDefinitionsAt fuel) b D ds (D.get ds) s

/-! ## Reads of unknown memory -/

/-- `joinDefinitions` for the intervals of one target. -/
def joinTarget (source : DefinitionsMap (RWNode N)) (D : DefinitionsMap (RWNode N))
    (t : Memory (RWNode N)) : DefinitionsMap (RWNode N) :=
  if D.definesTarget t then
    (source.offsets t).foldl (fun D e =>
      (D.undefinedIntervals (.ofInterval t e.1)).foldl (fun D J => D.addNodes (.ofInterval t J) e.2)
        D) D
  else D.addTarget t (source.offsets t) (source.ordered t)

/-- `joinDefinitions`; `targets` are the keys of the maps, in their order. -/
def joinDefinitions (targets : List (Memory (RWNode N))) (source D : Definitions (RWNode N)) :
    Definitions (RWNode N) :=
  { D with
    definitions := targets.foldl (joinTarget source.definitions) D.definitions
    unknownWrites := D.unknownWrites ++ source.unknownWrites }

/-- What `collectAllDefinitions` changes: the transformation, the blocks visited, and `defs`. -/
structure Collected (N : Type u) (B : Type v) where
  state : Transformation N B
  visitedBlocks : List B
  defs : Definitions (RWNode N)

/-- The loop of `collectAllDefinitions` over several predecessors: each starts with the definitions
there were, and all that is found is added up. -/
def collectFrom (collect : B → Collected N B → Option (Collected N B))
    (start : DefinitionsMap (RWNode N)) (blocks : List B) (c : Collected N B) :
    Option (Collected N B) :=
  blocks.foldlM (fun c b =>
    (collect b { c with defs := { Definitions.empty with definitions := start } }).map fun tmp =>
      { tmp with
        defs :=
          { c.defs with
            definitions := c.defs.definitions.addMap tmp.defs.definitions
            unknownWrites := c.defs.unknownWrites ++ tmp.defs.unknownWrites } }) c

/-- `collectAllDefinitions`, backwards from the end of a block. -/
def collectAllDefinitions (targets : List (Memory (RWNode N))) :
    Nat → B → Collected N B → Option (Collected N B)
  | 0, _, _ => none
  | fuel + 1, b, c =>
      if b ∈ c.visitedBlocks then some c
      else
        let (s, D) := getBBlockDefinitions G b c.state
        let c : Collected N B := ⟨s, b :: c.visitedBlocks, joinDefinitions targets D c.defs⟩
        match G.getSinglePredecessor b with
        | some p => collectAllDefinitions targets fuel p c
        | none =>
            collectFrom (collectAllDefinitions targets fuel) c.defs.definitions (G.predecessors b) c

/-- `values` and the writes to unknown memory. -/
def allNodes (targets : List (Memory (RWNode N))) (D : Definitions (RWNode N)) : List (RWNode N) :=
  (targets.flatMap fun t => (D.definitions.offsets t).values) ∪ D.unknownWrites

/-- `findAllDefinitions`, for a use in a block. -/
def findAllDefinitions (targets : List (Memory (RWNode N))) (fuel : Nat) (use : RWNode N) (b : B)
    (s : Transformation N B) : Option (Transformation N B × List (RWNode N)) :=
  let D := findDefinitionsInBlock G s b use
  let found := match G.getSinglePredecessor b with
    | some p => collectAllDefinitions G targets fuel p ⟨s, [], .empty⟩
    | none =>
        collectFrom (collectAllDefinitions G targets fuel) D.kills (G.predecessors b) ⟨s, [], .empty⟩
  found.map fun c => (c.state, allNodes targets (joinDefinitions targets c.defs D))

/-! ## Queries -/

/-- `usesUnknown`. -/
def usesUnknown (s : Transformation N B) (use : RWNode N) : Bool :=
  (s.getAnnotations G use).usesUnknown

/-- `findDefinitions` of a use. A read of unknown memory outside of all blocks is not modelled: the
source asserts that it is in a block. -/
def findDefinitions (targets : List (Memory (RWNode N))) (fuel : Nat) (use : RWNode N)
    (s : Transformation N B) : Option (Transformation N B × List (RWNode N)) :=
  match s.getBBlock G use with
  | none => if s.usesUnknown G use then none else some (s, [])
  | some b =>
      if s.usesUnknown G use then findAllDefinitions G targets fuel use b s
      else
        let D := findDefinitionsInBlock G s b use
        (s.getAnnotations G use).uses.foldlM
          (fun (acc : Transformation N B × List (RWNode N)) ds =>
            addUncoveredFromPredecessors G (findDefinitionsAt G fuel) b D ds (acc.2 ++ D.get ds)
              acc.1) (s, [])

omit [DecidableEq B] in
/-- The operands of a PHI node. -/
def operands (s : Transformation N B) (x : RWNode N) : List (RWNode N) :=
  if x.isPhi then (s.defuse x).getD [] else []

omit [DecidableEq B] in
/-- `gatherNonPhisDefs`: the nodes behind the PHI nodes. -/
def gatherNonPhisDefs (s : Transformation N B) (l : List (RWNode N)) : List (RWNode N) :=
  (dfs s.operands (s.phis.length + 1) l []).filter fun x => !x.isPhi

/-- `getDefinitions` of a use. -/
def getDefinitions (targets : List (Memory (RWNode N))) (fuel : Nat) (use : RWNode N)
    (s : Transformation N B) : Option (Transformation N B × List (RWNode N)) :=
  match s.defuse use with
  | some defs => some (s, s.gatherNonPhisDefs defs)
  | none =>
      (findDefinitions G targets fuel use s).map fun found =>
        let t := found.1.addDefUse use found.2
        (t, t.gatherNonPhisDefs ((t.defuse use).getD []))

/-- `insertUse`: a MU node before a node that is in a block. -/
def insertUse (where' : RWNode N) (ds : DefSite (RWNode N)) (s : Transformation N B) :
    Option (Transformation N B × RWNode N) :=
  (s.getBBlock G where').map fun b =>
    let use := RWNode.mu s.mus.length
    ({ s with
        mus := s.mus ++ [(ds, b)]
        nodes := Function.update s.nodes b
          ((s.nodes b).takeWhile (· ≠ where') ++ use :: (s.nodes b).dropWhile (· ≠ where')) }, use)

/-- `getDefinitions` of bytes at a node. -/
def getDefinitionsAt (targets : List (Memory (RWNode N))) (fuel : Nat) (where' : RWNode N)
    (ds : DefSite (RWNode N)) (s : Transformation N B) :
    Option (Transformation N B × List (RWNode N)) :=
  (insertUse G where' ds s).bind fun inserted =>
    getDefinitions G targets fuel inserted.2 inserted.1

end Transformation

end Cape.MemorySSA
