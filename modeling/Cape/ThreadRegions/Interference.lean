import Cape.LLVMReadWriteGraph.MapPointers
import Cape.Library.FallibleLoop
import Cape.Library.FinLiterals
import Cape.Slicing.NodeEdges
import Cape.ThreadRegions.ThreadRegionsBuilder

/-!
# Interference edges

`computeInterferenceDependentEdges`: every store of a region is compared with every load of a region
that may run in parallel, which are all of them. An edge is added for two pointers to one target when
their offsets are equal or one is unknown, and for the unknown pointer.

The sizes of the accesses are not asked for. `interference_complete_iff`: a load that may read a byte
that a store writes gets the edge, unless a function was not built or the two only overlap at
different known offsets.
-/

set_option autoImplicit false

namespace Cape.ThreadRegions

open Cape.Library Cape.PointerAnalysis Cape.LLVMReadWriteGraph Cape.Slicing.NodeEdges

inductive OpCode where
  | load
  | store
  | other
deriving DecidableEq, Repr

/-- What the dependence graph asks about nodes of regions and instructions. `W` are the operands, `V`
the allocation sites and `D` the nodes of dependence graphs, one for an instruction at most. -/
structure Instructions (Node I F W N V D : Type) where
  /-- `none` for an artificial node -/
  llvmInstruction : Node → Option I
  getOpcode : I → OpCode
  getOperand : I → Nat → W
  getFunction : I → F
  /-- the size of the value that is loaded or stored, in bytes -/
  accessSize : I → Nat
  /-- `findNode` of the graph of a function that was built -/
  constructedFunctions : F → Option (I → Option D)
  /-- the set of the node for a value in the pointer analysis -/
  pointsTo : W → Option (PointsToSet N)
  getUserData : N → V
  findNode_inj : ∀ i j d, (constructedFunctions (getFunction i)).bind (· i) = some d →
    (constructedFunctions (getFunction j)).bind (· j) = some d → i = j

/-- `MayHappenInParallel`: nothing is excluded. -/
def parallelRegions {Node : Type} (threadRegions : List (ThreadRegion Node))
    (_ : ThreadRegion Node) : List (ThreadRegion Node) :=
  threadRegions

namespace Instructions

variable {Node I F W N V D : Type} [DecidableEq I] [DecidableEq N] [DecidableEq V] [DecidableEq D]
variable (P : Instructions Node I F W N V D)

def llvmInstructions (order : Order I) (region : ThreadRegion Node) : List I :=
  order.toList (region.nodes.filterMap P.llvmInstruction).toFinset

def getInstructionsOfType (opCode : OpCode) (llvmInstructions : List I) : List I :=
  llvmInstructions.filter fun i => P.getOpcode i = opCode

def getLoadInstructions (llvmInstructions : List I) : List I :=
  P.getInstructionsOfType .load llvmInstructions

def getStoreInstructions (llvmInstructions : List I) : List I :=
  P.getInstructionsOfType .store llvmInstructions

/-- The node of an instruction, if its function was built and has it. -/
def findNode (i : I) : Option D := (P.constructedFunctions (P.getFunction i)).bind (· i)

def getLLVMPointsTo (val : W) : PointsToSet N := (getLLVMPointsToChecked (P.pointsTo val)).2

def loadPts (load : I) : PointsToSet N := P.getLLVMPointsTo (P.getOperand load 0)

def storePts (store : I) : PointsToSet N := P.getLLVMPointsTo (P.getOperand store 1)

/-- The offsets are equal or one is unknown. -/
def OffsetsMeet (pointerLoad pointerStore : LLVMPointer V) : Prop :=
  pointerLoad.value = pointerStore.value ∧
    (pointerLoad.offset.isUnknown = true ∨ pointerStore.offset.isUnknown = true ∨
      pointerLoad.offset = pointerStore.offset)

instance (p q : LLVMPointer V) : Decidable (OffsetsMeet p q) :=
  inferInstanceAs (Decidable (_ ∧ _))

/-- The loops over the pointers of a load and a store. -/
def addForPointers (loadNode storeNode : D) (loadPts storePts : PointsToSet N)
    (g : DependenceEdges D) : DependenceEdges D :=
  let g := (iterate P.getUserData loadPts).foldl
    (fun g pointerLoad => (iterate P.getUserData storePts).foldl
      (fun g pointerStore =>
        if OffsetsMeet pointerLoad pointerStore then
          (g.addInterferenceDependence storeNode loadNode).1
        else g) g) g
  if hasUnknown loadPts || hasUnknown storePts then
    (g.addInterferenceDependence storeNode loadNode).1
  else g

/-- `computeInterferenceDependentEdges(loads, stores)`. -/
def computeEdges (loads stores : List I) (g : DependenceEdges D) : DependenceEdges D :=
  loads.foldl
    (fun g load =>
      match P.findNode load with
      | none => g
      | some loadNode =>
          stores.foldl
            (fun g store =>
              match P.findNode store with
              | none => g
              | some storeNode =>
                  P.addForPointers loadNode storeNode (P.loadPts load) (P.storePts store) g) g) g

/-- The loop body for a region and one that may run in parallel. -/
def addForRegions (order : Order I) (currentRegion parallelRegion : ThreadRegion Node)
    (g : DependenceEdges D) : DependenceEdges D :=
  let currentRegionLoads := P.getLoadInstructions (P.llvmInstructions order currentRegion)
  let currentRegionStores := P.getStoreInstructions (P.llvmInstructions order currentRegion)
  let parallelRegionLoads := P.getLoadInstructions (P.llvmInstructions order parallelRegion)
  let parallelRegionStores := P.getStoreInstructions (P.llvmInstructions order parallelRegion)
  P.computeEdges parallelRegionLoads currentRegionStores
    (P.computeEdges currentRegionLoads parallelRegionStores g)

/-- `computeInterferenceDependentEdges(controlFlowGraph)`. -/
def computeInterferenceDependentEdges (order : Order I) (regions : List (ThreadRegion Node))
    (g : DependenceEdges D) : DependenceEdges D :=
  regions.foldl
    (fun g currentRegion => (parallelRegions regions currentRegion).foldl
      (fun g parallelRegion => P.addForRegions order currentRegion parallelRegion g) g) g

/-! ## What the accesses may share -/

/-- The byte `b` of the memory `v` may be accessed through a pointer of the set. -/
def MayAccess (S : PointsToSet N) (size : Nat) (v : V) (b : Nat) : Prop :=
  0 < size ∧ (hasUnknown S = true ∨ ∃ p ∈ iterate P.getUserData S, p.value = v ∧
    (p.offset = .unknown ∨ p.offset.toNat ≤ b ∧ b < p.offset.toNat + size))

def MayShareByte (load store : I) : Prop :=
  ∃ v b, P.MayAccess (P.loadPts load) (P.accessSize load) v b ∧
    P.MayAccess (P.storePts store) (P.accessSize store) v b

/-- There is the unknown pointer, or two pointers to one target whose offsets meet. -/
def Met (load store : I) : Prop :=
  (∃ p ∈ iterate P.getUserData (P.loadPts load), ∃ q ∈ iterate P.getUserData (P.storePts store),
    OffsetsMeet p q) ∨
  hasUnknown (P.loadPts load) = true ∨ hasUnknown (P.storePts store) = true

/-- Two pointers to one target have different known offsets, and the ranges share a byte. -/
def OverlapPartly (load store : I) : Prop :=
  ∃ p ∈ iterate P.getUserData (P.loadPts load), ∃ q ∈ iterate P.getUserData (P.storePts store),
    (p.value = q.value ∧ p.offset ≠ .unknown ∧ q.offset ≠ .unknown ∧ p.offset ≠ q.offset) ∧
    ∃ b, (p.offset.toNat ≤ b ∧ b < p.offset.toNat + P.accessSize load) ∧
      q.offset.toNat ≤ b ∧ b < q.offset.toNat + P.accessSize store

/-- The edge from the store to the load. -/
def Interferes (g : DependenceEdges D) (load store : I) : Prop :=
  ∃ loadNode storeNode, P.findNode load = some loadNode ∧ P.findNode store = some storeNode ∧
    loadNode ∈ g.edges .interference storeNode

/-- The load and the store are in regions. -/
structure InRegions (order : Order I) (regions : List (ThreadRegion Node)) (load store : I) : Prop where
  load : ∃ region ∈ regions, load ∈ P.getLoadInstructions (P.llvmInstructions order region)
  store : ∃ region ∈ regions, store ∈ P.getStoreInstructions (P.llvmInstructions order region)

/-- Where the code does what is asked: accesses that may share a byte have nodes, and two that overlap
at different offsets are also met at equal or unknown ones. -/
structure Fits (load store : I) : Prop where
  built : P.MayShareByte load store →
    (P.findNode load).isSome = true ∧ (P.findNode store).isSome = true
  met : P.OverlapPartly load store → P.Met load store

variable {P}

omit [DecidableEq I] [DecidableEq D] in
/-- Accesses that may share a byte are met, or overlap at different offsets. -/
theorem mayShareByte_cases {load store : I} (h : P.MayShareByte load store) :
    P.Met load store ∨ P.OverlapPartly load store := by
  obtain ⟨v, b, ⟨-, hload⟩, -, hstore⟩ := h
  rcases hload with hload | ⟨p, hp, rfl, hpb⟩
  · exact Or.inl (Or.inr (Or.inl hload))
  · rcases hstore with hstore | ⟨q, hq, hval, hqb⟩
    · exact Or.inl (Or.inr (Or.inr hstore))
    · by_cases hmeet : OffsetsMeet p q
      · exact Or.inl (Or.inl ⟨p, hp, q, hq, hmeet⟩)
      · -- both offsets are known and they differ
        have hp' : p.offset ≠ .unknown := fun h => hmeet ⟨hval.symm, Or.inl (by simp [h])⟩
        have hq' : q.offset ≠ .unknown := fun h => hmeet ⟨hval.symm, Or.inr (Or.inl (by simp [h]))⟩
        have hne : p.offset ≠ q.offset := fun h => hmeet ⟨hval.symm, Or.inr (Or.inr h)⟩
        exact Or.inr ⟨p, hp, q, hq, ⟨hval.symm, hp', hq', hne⟩, b, hpb.resolve_left hp',
          hqb.resolve_left hq'⟩

omit [DecidableEq I] [DecidableEq V] [DecidableEq D] in
theorem mayShareByte_of_overlapPartly {load store : I} (h : P.OverlapPartly load store) :
    P.MayShareByte load store := by
  obtain ⟨p, hp, q, hq, ⟨hval, -⟩, b, hpb, hqb⟩ := h
  refine ⟨p.value, b, ⟨?_, Or.inr ⟨p, hp, rfl, Or.inr hpb⟩⟩, ?_,
    Or.inr ⟨q, hq, hval.symm, Or.inr hqb⟩⟩
  · omega
  · omega

/-! ## The edges that are added -/

omit [DecidableEq I] in
/-- The pointers of a load and a store add the edge where they are met. -/
theorem mem_addForPointers {loadNode storeNode : D} {load store : I} (g : DependenceEdges D) (x y : D) :
    y ∈ (P.addForPointers loadNode storeNode (P.loadPts load) (P.storePts store) g).edges
        .interference x ↔
      y ∈ g.edges .interference x ∨ (x = storeNode ∧ y = loadNode) ∧ P.Met load store := by
  have hadd : ∀ g : DependenceEdges D,
      y ∈ (g.addInterferenceDependence storeNode loadNode).1.edges .interference x ↔
        y ∈ g.edges .interference x ∨ x = storeNode ∧ y = loadNode := by
    intro g
    rw [DependenceEdges.addInterferenceDependence, DependenceEdges.mem_edges_add]
    simp
  -- the loop over the pointers of the store, for one of the load
  have hinner := fun (p : LLVMPointer V) (g : DependenceEdges D) =>
    FallibleLoop.foldl_adds (P := fun g : DependenceEdges D => y ∈ g.edges .interference x)
      (Q := fun q => (x = storeNode ∧ y = loadNode) ∧ OffsetsMeet p q)
      (g := fun g q =>
        if OffsetsMeet p q then (g.addInterferenceDependence storeNode loadNode).1 else g)
      (l := iterate P.getUserData (P.storePts store))
      (fun q _ g => by
        split
        · next h => rw [hadd, and_iff_left h]
        · next h => simp [h]) g
  have hpointers := FallibleLoop.foldl_adds
    (P := fun g : DependenceEdges D => y ∈ g.edges .interference x)
    (Q := fun p => ∃ q ∈ iterate P.getUserData (P.storePts store),
      (x = storeNode ∧ y = loadNode) ∧ OffsetsMeet p q)
    (l := iterate P.getUserData (P.loadPts load)) (fun p _ g => hinner p g) g
  rw [addForPointers]
  simp only [Bool.or_eq_true]
  -- then the unknown pointer
  split
  · next h =>
      rw [hadd, hpointers, Met]
      constructor
      · rintro ((hmem | ⟨p, hp, q, hq, hxy, -⟩) | hxy)
        · exact Or.inl hmem
        · exact Or.inr ⟨hxy, Or.inr h⟩
        · exact Or.inr ⟨hxy, Or.inr h⟩
      · rintro (hmem | ⟨hxy, -⟩)
        · exact Or.inl (Or.inl hmem)
        · exact Or.inr hxy
  · next h =>
      rw [hpointers, Met]
      constructor
      · rintro (hmem | ⟨p, hp, q, hq, hxy, hmeet⟩)
        · exact Or.inl hmem
        · exact Or.inr ⟨hxy, Or.inl ⟨p, hp, q, hq, hmeet⟩⟩
      · rintro (hmem | ⟨hxy, ⟨p, hp, q, hq, hmeet⟩ | hunknown⟩)
        · exact Or.inl hmem
        · exact Or.inr ⟨p, hp, q, hq, hxy, hmeet⟩
        · exact absurd hunknown h

omit [DecidableEq I] in
theorem mem_computeEdges (loads stores : List I) (g : DependenceEdges D) (x y : D) :
    y ∈ (P.computeEdges loads stores g).edges .interference x ↔
      y ∈ g.edges .interference x ∨ ∃ load ∈ loads, ∃ store ∈ stores,
        P.findNode load = some y ∧ P.findNode store = some x ∧ P.Met load store := by
  rw [computeEdges]
  refine FallibleLoop.foldl_adds (P := fun g : DependenceEdges D => y ∈ g.edges .interference x)
    (fun load _ g => ?_) g
  cases hload : P.findNode load with
  | none => simp
  | some loadNode =>
      refine FallibleLoop.foldl_adds (P := fun g : DependenceEdges D => y ∈ g.edges .interference x)
        (fun store _ g => ?_) g
      cases hstore : P.findNode store with
      | none => simp
      | some storeNode =>
          simp only [mem_addForPointers, Option.some_inj]
          rw [and_comm (a := x = storeNode), and_assoc, eq_comm (a := y), eq_comm (a := x)]

/-- A load of a region and a store of another one are met. -/
def MetIn (P : Instructions Node I F W N V D) (order : Order I) (r r' : ThreadRegion Node) (x y : D) :
    Prop :=
  ∃ load ∈ P.getLoadInstructions (P.llvmInstructions order r),
    ∃ store ∈ P.getStoreInstructions (P.llvmInstructions order r'),
      P.findNode load = some y ∧ P.findNode store = some x ∧ P.Met load store

theorem mem_addForRegions (order : Order I) (r r' : ThreadRegion Node) (g : DependenceEdges D)
    (x y : D) :
    y ∈ (P.addForRegions order r r' g).edges .interference x ↔
      y ∈ g.edges .interference x ∨ (P.MetIn order r r' x y ∨ P.MetIn order r' r x y) := by
  simp only [addForRegions, mem_computeEdges, or_assoc, MetIn]

/-- **All edges that are added.** -/
theorem mem_computeInterferenceDependentEdges (order : Order I) (regions : List (ThreadRegion Node))
    (g : DependenceEdges D) (x y : D) :
    y ∈ (P.computeInterferenceDependentEdges order regions g).edges .interference x ↔
      y ∈ g.edges .interference x ∨ ∃ load store, P.InRegions order regions load store ∧
        P.findNode load = some y ∧ P.findNode store = some x ∧ P.Met load store := by
  -- one region against all
  have hone := fun (r : ThreadRegion Node) (g : DependenceEdges D) =>
    FallibleLoop.foldl_adds (P := fun g : DependenceEdges D => y ∈ g.edges .interference x)
      (g := fun g r' => P.addForRegions order r r' g) (l := parallelRegions regions r)
      (fun r' _ g => mem_addForRegions order r r' g x y) g
  have hall := FallibleLoop.foldl_adds
    (P := fun g : DependenceEdges D => y ∈ g.edges .interference x) (l := regions)
    (fun r _ g => hone r g) g
  rw [computeInterferenceDependentEdges]
  apply hall.trans
  refine or_congr_right ⟨?_, ?_⟩
  · rintro ⟨r, hr, r', hr', ⟨load, hload, store, hstore, h⟩ | ⟨load, hload, store, hstore, h⟩⟩
    · exact ⟨load, store, ⟨⟨r, hr, hload⟩, ⟨r', hr', hstore⟩⟩, h⟩
    · exact ⟨load, store, ⟨⟨r', hr', hload⟩, ⟨r, hr, hstore⟩⟩, h⟩
  · rintro ⟨load, store, ⟨⟨r, hr, hload⟩, ⟨r', hr', hstore⟩⟩, h⟩
    exact ⟨r, hr, r', hr', Or.inl ⟨load, hload, store, hstore, h⟩⟩

variable (P)

/-- **Interference.** In a graph without interference edges, a load and a store of regions that may
share a byte get their edge exactly when they have nodes and do not overlap at different offsets
only. -/
theorem interference_complete_iff (order : Order I) (regions : List (ThreadRegion Node))
    {g : DependenceEdges D} (hfree : ∀ x, g.edges .interference x = ∅) {load store : I}
    (hin : P.InRegions order regions load store) :
    (P.MayShareByte load store →
      P.Interferes (P.computeInterferenceDependentEdges order regions g) load store) ↔
    P.Fits load store := by
  have hedge : P.Interferes (P.computeInterferenceDependentEdges order regions g) load store ↔
      ∃ y x, P.findNode load = some y ∧ P.findNode store = some x ∧ P.Met load store := by
    refine exists_congr fun y => exists_congr fun x => and_congr_right fun hload =>
      and_congr_right fun hstore => ?_
    rw [mem_computeInterferenceDependentEdges, hfree]
    constructor
    · rintro (h | ⟨load', store', -, hload', hstore', hmet⟩)
      · simp at h
      · -- a node is that of one instruction
        obtain rfl := P.findNode_inj _ _ _ hload hload'
        obtain rfl := P.findNode_inj _ _ _ hstore hstore'
        exact hmet
    · exact fun hmet => Or.inr ⟨load, store, hin, hload, hstore, hmet⟩
  rw [hedge]
  constructor
  · intro h
    refine ⟨fun hshare => ?_, fun hpart => ?_⟩
    · obtain ⟨y, x, hload, hstore, -⟩ := h hshare
      simp [hload, hstore]
    · obtain ⟨y, x, -, -, hmet⟩ := h (mayShareByte_of_overlapPartly hpart)
      exact hmet
  · intro hfit hshare
    obtain ⟨hload, hstore⟩ := hfit.built hshare
    obtain ⟨y, hy⟩ := Option.isSome_iff_exists.1 hload
    obtain ⟨x, hx⟩ := Option.isSome_iff_exists.1 hstore
    rcases mayShareByte_cases hshare with hmet | hpart
    · exact ⟨y, x, hy, hx, hmet⟩
    · exact ⟨y, x, hy, hx, hfit.met hpart⟩

/-- A thread loads 8 bytes from the beginning of a variable, another one stores 4 bytes at its
offset 4. -/
def halfStored : Instructions (Fin 2) (Fin 2) Unit (Fin 2) Unit Unit (Fin 2) where
  llvmInstruction := some
  getOpcode i := if i = 0 then .load else .store
  getOperand i _ := i
  getFunction _ := ()
  accessSize i := if i = 0 then 8 else 4
  constructedFunctions _ := some some
  pointsTo w := some (.singleton ⟨.node (), if w = 0 then 0 else 4⟩)
  getUserData _ := ()
  findNode_inj := fun _ _ _ hi hj => Option.some.inj (hi.trans hj.symm)

def twoRegions : List (ThreadRegion (Fin 2)) :=
  [{ foundingNode := 0, nodes := [0] }, { foundingNode := 1, nodes := [1] }]

theorem inRegions_halfStored : halfStored.InRegions (Order.ascending (Fin 2)) twoRegions 0 1 where
  load := ⟨_, List.mem_cons_self, by decide⟩
  store := ⟨_, List.mem_cons_of_mem _ List.mem_cons_self, by decide⟩

theorem interference_halfStored :
    (halfStored.MayShareByte 0 1 → halfStored.Interferes (halfStored.computeInterferenceDependentEdges
      (Order.ascending (Fin 2)) twoRegions .empty) 0 1) ↔ halfStored.Fits 0 1 :=
  halfStored.interference_complete_iff _ _ (fun _ => rfl) inRegions_halfStored

theorem interference_missed : ¬ ∀ load store,
    halfStored.InRegions (Order.ascending (Fin 2)) twoRegions load store →
    halfStored.MayShareByte load store →
    halfStored.Interferes (halfStored.computeInterferenceDependentEdges (Order.ascending (Fin 2))
      twoRegions .empty) load store := by
  intro h
  have hshare : halfStored.MayShareByte 0 1 := by
    refine ⟨(), 4, ⟨by decide, Or.inr ⟨⟨(), 0⟩, by decide, rfl, Or.inr (by decide)⟩⟩,
      by decide, Or.inr ⟨⟨(), 4⟩, by decide, rfl, Or.inr (by decide)⟩⟩
  obtain ⟨loadNode, storeNode, hload, hstore, hmem⟩ := h 0 1 inRegions_halfStored hshare
  obtain rfl := Option.some.inj hload
  obtain rfl := Option.some.inj hstore
  revert hmem
  decide

end Instructions

end Cape.ThreadRegions
