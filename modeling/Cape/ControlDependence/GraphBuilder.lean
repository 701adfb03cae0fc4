import Cape.Library.FallibleLoop
import Cape.Library.Tarjan
import Mathlib.Data.Finset.Union

/-!
# The block graph of a function

`GraphBuilder::buildFunction` splits the blocks of a function at calls, adds a unified exit, and gives
an edge to the exit to every strongly connected component that no edge leaves. `exists_buildFunction`:
the graph is built, and in it every block that the entry reaches, reaches the exit. The other edges are
those from before (`every_loop_exits`).
-/

set_option autoImplicit false

namespace Cape.ControlDependence.Legacy

open Cape.Library

/-- A function that a call may call. -/
inductive CalledFunction where
  /-- It has blocks. -/
  | defined
  /-- For each function that may be forked: whether it has blocks. -/
  | pthreadCreate (forkFunctions : List Bool)
  /-- For each function that may be joined: whether it has blocks. -/
  | pthreadJoin (joinFunctions : List Bool)
  | other

/-- The function as LLVM has it, and what may be called in it. -/
structure LLVMFunction (B I : Type) where
  blocks : List B
  instructions : B → List I
  successors : B → List B
  isCall : I → Bool
  getCalledFunctions : I → List CalledFunction
  blocks_ne_nil : blocks ≠ []
  instructions_ne_nil : ∀ b, instructions b ≠ []

/-- `Function` with its blocks. A block is known by its number; number 0 is the unified exit. -/
structure Graph (B I : Type) where
  size : Nat
  llvmBlock : Nat → Option B
  isCallReturn : Nat → Bool
  llvmInstructions : Nat → List I
  successors : Nat → Finset Nat
  predecessors : Nat → Finset Nat
  entry : Option Nat

/-- What `buildFunction` keeps while it makes the blocks. -/
structure Building (B I : Type) where
  graph : Graph B I
  mapping : B → List Nat
  instToBlockMap : I → Option Nat
  lastBlock : Option Nat
  createBlock : Bool

section

variable {B I : Type}

namespace Graph

def exit : Nat := 0

/-- `Function()`: only the exit. -/
def empty : Graph B I :=
  ⟨1, fun _ => none, fun _ => false, fun _ => [], fun _ => ∅, fun _ => ∅, none⟩

/-- `nodes()`. -/
def nodes (g : Graph B I) : Finset Nat := Finset.range g.size

def addSuccessor (g : Graph B I) (b s : Nat) : Graph B I :=
  { g with
    successors := Function.update g.successors b (insert s (g.successors b))
    predecessors := Function.update g.predecessors s (insert b (g.predecessors s)) }

/-- A new `Block`, and `addBlock` for it. -/
def newBlock (g : Graph B I) (llvmBlock : B) (callReturn : Bool) : Graph B I :=
  { g with
    size := g.size + 1
    llvmBlock := Function.update g.llvmBlock g.size (some llvmBlock)
    isCallReturn := Function.update g.isCallReturn g.size callReturn
    entry := some (g.entry.getD g.size) }

def addInstruction (g : Graph B I) (b : Nat) (inst : I) : Graph B I :=
  { g with
    llvmInstructions := Function.update g.llvmInstructions b (g.llvmInstructions b ++ [inst]) }

end Graph

variable [DecidableEq B] [DecidableEq I] (F : LLVMFunction B I)

/-- `predecessorsNumber` is positive, or it is the first block. -/
def isReachable (b : B) : Bool :=
  decide (b ∈ F.blocks.flatMap F.successors) || F.blocks.head? == some b

/-- `handleCallInstruction`: `createBlock` and `createCallReturn`. -/
def handleCallInstruction (threads : Bool) (inst : I) : Bool × Bool :=
  (F.getCalledFunctions inst).foldl
    (fun (createBlock, createCallReturn) f =>
      match f with
      | .defined => (createBlock, true)
      | .pthreadCreate forks =>
          if threads then (createBlock || forks.any id, createCallReturn)
          else (createBlock, createCallReturn)
      | .pthreadJoin joins =>
          if threads then (createBlock, createCallReturn || joins.any id)
          else (createBlock, createCallReturn)
      | .other => (createBlock, createCallReturn))
    (false, false)

/-- A new block becomes the last one. -/
def Building.push (s : Building B I) (b : B) (callReturn : Bool) : Building B I :=
  { s with
    graph := s.graph.newBlock b callReturn
    mapping := Function.update s.mapping b (s.mapping b ++ [s.graph.size])
    lastBlock := some s.graph.size }

/-- An edge from the block that was the last one, if it is there. -/
def Building.link (s : Building B I) (last : Option Nat) (b : Nat) : Building B I :=
  match last with
  | some l => { s with graph := s.graph.addSuccessor l b }
  | none => s

/-- A new block before the instruction, if there is to be one. -/
def startBlock (b : B) (s : Building B I) : Building B I :=
  if s.createBlock then
    let last := s.lastBlock.filter fun l => s.graph.llvmBlock l = some b
    { (s.push b false).link last s.graph.size with createBlock := false }
  else s

/-- The instruction goes to the last block. -/
def addInstruction (s : Building B I) (inst : I) : Building B I :=
  match s.lastBlock with
  | some l =>
      { s with
        graph := s.graph.addInstruction l inst
        instToBlockMap := if (s.instToBlockMap inst).isSome then s.instToBlockMap
          else Function.update s.instToBlockMap inst (some l) }
  | none => s

/-- A block for what comes after the call, if there is to be one. -/
def callReturnBlock (b : B) (createCallReturn : Bool) (s : Building B I) : Building B I :=
  if createCallReturn then
    { (s.push b true).link s.lastBlock s.graph.size with createBlock := true }
  else s

def visitInstruction (recursively threads : Bool) (b : B) (s : Building B I) (inst : I) :
    Building B I :=
  let s := startBlock b s
  let flags :=
    if recursively && F.isCall inst then handleCallInstruction F threads inst else (false, false)
  let s := addInstruction { s with createBlock := s.createBlock || flags.1 } inst
  callReturnBlock b flags.2 s

def visitBlock (recursively threads : Bool) (s : Building B I) (b : B) : Building B I :=
  if isReachable F b then
    (F.instructions b).foldl (visitInstruction F recursively threads b) { s with createBlock := true }
  else s

/-- The edges between the blocks of LLVM: from the block of the last instruction. -/
def addEdges (inst : I → Option Nat) (g : Graph B I) (b : B) : Graph B I :=
  if isReachable F b then
    match (F.instructions b).getLast?.bind inst with
    | some block =>
        let g := (F.successors b).foldl
          (fun g s =>
            match (F.instructions s).head?.bind inst with
            | some succ => g.addSuccessor block succ
            | none => g) g
        if (F.successors b).isEmpty then g.addSuccessor block Graph.exit else g
    | none => g
  else g

/-- The graph before components are looked at. -/
def splitBlocks (recursively threads : Bool) : Graph B I :=
  let s := F.blocks.foldl (visitBlock F recursively threads)
    ⟨.empty, fun _ => [], fun _ => none, none, false⟩
  F.blocks.foldl (addEdges F s.instToBlockMap) s.graph

/-- `computeCondensation`: the components that an edge leads to from the component `C`. -/
def condensation (O : Order Nat) (g : Graph B I) (t : Tarjan.State Nat) (C : List Nat) : List Nat :=
  C.flatMap fun node => (O.toList (g.successors node)).filterMap fun succ =>
    if t.component node ≠ t.component succ then t.component succ else none

/-- `isExit`. -/
def isExit (C : List Nat) : Bool := decide (C.length = 1) && C.getLast? == some Graph.exit

/-- A component that no edge leaves gets one to the exit. -/
def closeComponent (O : Order Nat) (g₀ : Graph B I) (t : Tarjan.State Nat) (g : Graph B I) (i : Nat) :
    Graph B I :=
  match t.components[i]? with
  | some C =>
      if !isExit C && (condensation O g₀ t C).isEmpty then
        match C.getLast? with
        | some back => g.addSuccessor back Graph.exit
        | none => g
      else g
  | none => g

/-- `buildFunction`; `none` when the fuel of the search for components is spent. -/
def buildFunction (O : Order Nat) (recursively threads : Bool) (fuel : Nat) :
    Option (Graph B I) := do
  let g := splitBlocks F recursively threads
  let entry ← g.entry
  let t ← Tarjan.compute (fun x => O.toList (g.successors x)) fuel .init entry
  some ((O.toList (Finset.range t.components.length)).foldl (closeComponent O g t) g)

/-! ## Well-formed graphs -/

/-- Edges are between blocks of the graph, and none leaves the exit. -/
structure Graph.WellFormed (g : Graph B I) : Prop where
  size_pos : 0 < g.size
  closed : ∀ x, ∀ y ∈ g.successors x, x < g.size ∧ y < g.size
  converse : ∀ x y, x ∈ g.predecessors y ↔ y ∈ g.successors x
  exit : g.successors Graph.exit = ∅
  entry : ∀ e, g.entry = some e → e < g.size

namespace Graph

omit [DecidableEq B] [DecidableEq I] in
theorem mem_addSuccessor {g : Graph B I} {b s x y : Nat} :
    y ∈ (g.addSuccessor b s).successors x ↔ y ∈ g.successors x ∨ (x = b ∧ y = s) := by
  show y ∈ Function.update g.successors b (insert s (g.successors b)) x ↔ _
  by_cases hx : x = b
  · subst hx
    simp [or_comm]
  · simp [hx]

omit [DecidableEq B] [DecidableEq I] in
theorem mem_predecessors_addSuccessor {g : Graph B I} {b s x y : Nat} :
    x ∈ (g.addSuccessor b s).predecessors y ↔ x ∈ g.predecessors y ∨ (x = b ∧ y = s) := by
  show x ∈ Function.update g.predecessors s (insert b (g.predecessors s)) y ↔ _
  by_cases hy : y = s
  · subst hy
    simp [or_comm]
  · simp [hy]

namespace WellFormed

variable {g : Graph B I}

omit [DecidableEq B] [DecidableEq I] in
theorem addSuccessor (h : g.WellFormed) {b s : Nat} (hb : 0 < b) (hbs : b < g.size)
    (hs : s < g.size) : (g.addSuccessor b s).WellFormed where
  size_pos := h.size_pos
  closed x y hy := by
    obtain hy | ⟨rfl, rfl⟩ := mem_addSuccessor.1 hy
    · exact h.closed x y hy
    · exact ⟨hbs, hs⟩
  converse x y := by
    rw [mem_predecessors_addSuccessor, mem_addSuccessor, h.converse]
  exit := by
    have hne : Graph.exit ≠ b := Nat.ne_of_lt hb
    exact (Function.update_of_ne hne _ _).trans h.exit
  entry := h.entry

omit [DecidableEq B] [DecidableEq I] in
theorem newBlock (h : g.WellFormed) (b : B) (callReturn : Bool) :
    (g.newBlock b callReturn).WellFormed where
  size_pos := Nat.succ_pos _
  closed x y hy := by
    obtain ⟨hx, hy⟩ := h.closed x y hy
    exact ⟨Nat.lt_succ_of_lt hx, Nat.lt_succ_of_lt hy⟩
  converse := h.converse
  exit := h.exit
  entry e he := by
    obtain rfl := Option.some.inj he
    cases hent : g.entry with
    | none => exact Nat.lt_succ_self _
    | some e => exact Nat.lt_succ_of_lt (h.entry e hent)

omit [DecidableEq B] [DecidableEq I] in
theorem addInstruction (h : g.WellFormed) (b : Nat) (inst : I) :
    (g.addInstruction b inst).WellFormed :=
  ⟨h.size_pos, h.closed, h.converse, h.exit, h.entry⟩

omit [DecidableEq B] [DecidableEq I] in
theorem empty : (Graph.empty : Graph B I).WellFormed where
  size_pos := Nat.one_pos
  closed x y hy := absurd hy (Finset.notMem_empty y)
  converse x y := iff_of_false (Finset.notMem_empty x) (Finset.notMem_empty y)
  exit := rfl
  entry e he := by cases he

end WellFormed

end Graph

/-- What holds while the blocks are made. -/
structure Building.Valid (s : Building B I) : Prop where
  wellFormed : s.graph.WellFormed
  lastBlock : ∀ l, s.lastBlock = some l → 0 < l ∧ l < s.graph.size
  instToBlockMap : ∀ i k, s.instToBlockMap i = some k → 0 < k ∧ k < s.graph.size

namespace Building.Valid

variable {s : Building B I}

omit [DecidableEq I] in
theorem push (h : s.Valid) (b : B) (callReturn : Bool) : (s.push b callReturn).Valid where
  wellFormed := h.wellFormed.newBlock b callReturn
  lastBlock l hl := by
    obtain rfl := Option.some.inj hl
    exact ⟨h.wellFormed.size_pos, Nat.lt_succ_self _⟩
  instToBlockMap i k hk := by
    obtain ⟨hpos, hlt⟩ := h.instToBlockMap i k hk
    exact ⟨hpos, Nat.lt_succ_of_lt hlt⟩

omit [DecidableEq B] [DecidableEq I] in
theorem link (h : s.Valid) {last : Option Nat} {b : Nat}
    (hlast : ∀ l, last = some l → 0 < l ∧ l < s.graph.size) (hb : b < s.graph.size) :
    (s.link last b).Valid := by
  cases last with
  | none => exact h
  | some l =>
      obtain ⟨hpos, hlt⟩ := hlast l rfl
      exact ⟨h.wellFormed.addSuccessor hpos hlt hb, h.lastBlock, h.instToBlockMap⟩

omit [DecidableEq B] [DecidableEq I] in
theorem setCreateBlock (h : s.Valid) (c : Bool) : { s with createBlock := c }.Valid :=
  ⟨h.wellFormed, h.lastBlock, h.instToBlockMap⟩

omit [DecidableEq I] in
/-- A new block after the last one. -/
theorem pushLink (h : s.Valid) (b : B) (callReturn : Bool) {last : Option Nat}
    (hlast : ∀ l, last = some l → s.lastBlock = some l) (c : Bool) :
    { (s.push b callReturn).link last s.graph.size with createBlock := c }.Valid := by
  refine ((h.push b callReturn).link (fun l hl => ?_) (Nat.lt_succ_self _)).setCreateBlock c
  obtain ⟨hpos, hlt⟩ := h.lastBlock l (hlast l hl)
  exact ⟨hpos, Nat.lt_succ_of_lt hlt⟩

omit [DecidableEq I] in
theorem startBlock (h : s.Valid) (b : B) : (Legacy.startBlock b s).Valid := by
  rw [Legacy.startBlock]
  split
  · exact h.pushLink b false (fun l hl => (Option.filter_eq_some_iff.1 hl).1) false
  · exact h

omit [DecidableEq I] in
theorem callReturnBlock (h : s.Valid) (b : B) (c : Bool) :
    (Legacy.callReturnBlock b c s).Valid := by
  rw [Legacy.callReturnBlock]
  split
  · exact h.pushLink b true (fun l hl => hl) true
  · exact h

omit [DecidableEq B] in
theorem addInstruction (h : s.Valid) (inst : I) : (Legacy.addInstruction s inst).Valid := by
  rw [Legacy.addInstruction]
  split
  · next l hl =>
      refine ⟨h.wellFormed.addInstruction l inst, h.lastBlock, fun i k hk => ?_⟩
      have hk : (if (s.instToBlockMap inst).isSome then s.instToBlockMap
        else Function.update s.instToBlockMap inst (some l)) i = some k := hk
      split at hk
      · exact h.instToBlockMap i k hk
      · by_cases hi : i = inst
        · subst hi
          rw [Function.update_self] at hk
          obtain rfl := Option.some.inj hk
          exact h.lastBlock l hl
        · rw [Function.update_of_ne hi] at hk
          exact h.instToBlockMap i k hk
  · exact h

variable {F : LLVMFunction B I}

theorem visitInstruction (h : s.Valid) (recursively threads : Bool) (b : B) (inst : I) :
    (Legacy.visitInstruction F recursively threads b s inst).Valid :=
  (((h.startBlock b).setCreateBlock _).addInstruction inst).callReturnBlock b _

theorem visitBlock (h : s.Valid) (recursively threads : Bool) (b : B) :
    (Legacy.visitBlock F recursively threads s b).Valid := by
  rw [Legacy.visitBlock]
  split
  · exact List.foldlRecOn (F.instructions b) _ (h.setCreateBlock true)
      fun s hs i _ => hs.visitInstruction recursively threads b i
  · exact h

end Building.Valid

/-! ## There is an entry -/

section Entry

variable {F : LLVMFunction B I}

omit [DecidableEq I] in
@[simp] theorem entry_push (s : Building B I) (b : B) (callReturn : Bool) :
    (s.push b callReturn).graph.entry = some (s.graph.entry.getD s.graph.size) := rfl

omit [DecidableEq B] [DecidableEq I] in
@[simp] theorem entry_link (s : Building B I) (last : Option Nat) (b : Nat) :
    (s.link last b).graph.entry = s.graph.entry := by
  cases last <;> rfl

omit [DecidableEq B] in
@[simp] theorem entry_addInstruction (s : Building B I) (inst : I) :
    (addInstruction s inst).graph.entry = s.graph.entry := by
  rw [addInstruction]
  split <;> rfl

omit [DecidableEq I] in
theorem entry_startBlock {s : Building B I} (h : s.createBlock = true ∨ s.graph.entry.isSome) (b : B) :
    (startBlock b s).graph.entry.isSome := by
  rw [startBlock]
  split
  · show ((s.push b false).link _ s.graph.size).graph.entry.isSome = true
    simp
  · next hc => exact h.resolve_left hc

omit [DecidableEq I] in
theorem entry_callReturnBlock {s : Building B I} (h : s.graph.entry.isSome) (b : B) (c : Bool) :
    (callReturnBlock b c s).graph.entry.isSome := by
  rw [callReturnBlock]
  split
  · show ((s.push b true).link _ s.graph.size).graph.entry.isSome = true
    simp
  · exact h

theorem entry_visitInstruction (recursively threads : Bool) (b : B) (s : Building B I) (inst : I)
    (h : s.createBlock = true ∨ s.graph.entry.isSome) :
    (visitInstruction F recursively threads b s inst).graph.entry.isSome := by
  refine entry_callReturnBlock ?_ b _
  rw [entry_addInstruction]
  exact entry_startBlock h b

theorem entry_visitBlock (recursively threads : Bool) (b : B) (s : Building B I)
    (h : isReachable F b = true ∨ s.graph.entry.isSome) :
    (visitBlock F recursively threads s b).graph.entry.isSome := by
  rw [visitBlock]
  split
  · -- the first instruction makes the entry if there is none
    obtain ⟨i, is, his⟩ := List.exists_cons_of_ne_nil (F.instructions_ne_nil b)
    rw [his, List.foldl_cons]
    exact List.foldlRecOn (motive := fun s : Building B I => s.graph.entry.isSome) is _
      (entry_visitInstruction recursively threads b _ i (Or.inl rfl))
      fun s hs i _ => entry_visitInstruction recursively threads b s i (Or.inr hs)
  · next hb => exact h.resolve_left hb

end Entry

/-! ## The graph before components are looked at -/

section Split

variable {F : LLVMFunction B I}

omit [DecidableEq I] in
theorem wellFormed_addEdges {inst : I → Option Nat} {size : Nat}
    (hinst : ∀ i k, inst i = some k → 0 < k ∧ k < size) {g : Graph B I} (h : g.WellFormed)
    (hsize : g.size = size) (b : B) :
    (addEdges F inst g b).WellFormed ∧ (addEdges F inst g b).size = size ∧
      (addEdges F inst g b).entry = g.entry := by
  have hkeep : g.WellFormed ∧ g.size = size ∧ g.entry = g.entry := ⟨h, hsize, rfl⟩
  rw [addEdges]
  split
  · split
    · next block hblock =>
        obtain ⟨i, -, hi⟩ := Option.bind_eq_some_iff.1 hblock
        obtain ⟨hpos, hlt⟩ := hinst i block hi
        -- one successor of the block
        have hloop : ∀ g' : Graph B I, g'.WellFormed ∧ g'.size = size ∧ g'.entry = g.entry →
            ∀ s ∈ F.successors b, ∀ g'' : Graph B I, g'' = (match (F.instructions s).head?.bind inst with
              | some succ => g'.addSuccessor block succ
              | none => g') → g''.WellFormed ∧ g''.size = size ∧ g''.entry = g.entry := by
          rintro g' ⟨hg', hsize', hentry'⟩ s - g'' rfl
          split
          · next succ hsucc =>
              obtain ⟨j, -, hj⟩ := Option.bind_eq_some_iff.1 hsucc
              exact ⟨hg'.addSuccessor hpos (hsize' ▸ hlt) (hsize' ▸ (hinst j succ hj).2), hsize',
                hentry'⟩
          · exact ⟨hg', hsize', hentry'⟩
        obtain ⟨hg', hsize', hentry'⟩ := List.foldlRecOn (F.successors b)
          (motive := fun g' : Graph B I => g'.WellFormed ∧ g'.size = size ∧ g'.entry = g.entry)
          _ hkeep fun g' hg' s hs => hloop g' hg' s hs _ rfl
        split
        · exact ⟨hg'.addSuccessor hpos (hsize' ▸ hlt) hg'.size_pos, hsize', hentry'⟩
        · exact ⟨hg', hsize', hentry'⟩
    · exact hkeep
  · exact hkeep

theorem splitBlocks_spec (F : LLVMFunction B I) (recursively threads : Bool) :
    (splitBlocks F recursively threads).WellFormed ∧
      ∃ e, (splitBlocks F recursively threads).entry = some e := by
  obtain ⟨b, bs, hbs⟩ := List.exists_cons_of_ne_nil F.blocks_ne_nil
  let s₀ : Building B I := ⟨.empty, fun _ => [], fun _ => none, none, false⟩
  have hvalid₀ : s₀.Valid := by
    refine ⟨.empty, fun l hl => ?_, fun i k hk => ?_⟩
    · cases hl
    · cases hk
  -- the blocks are made first, and the first one of the function is the entry
  have hvalid : (F.blocks.foldl (visitBlock F recursively threads) s₀).Valid :=
    List.foldlRecOn _ _ hvalid₀ fun s hs b _ => hs.visitBlock recursively threads b
  have hentry : (F.blocks.foldl (visitBlock F recursively threads) s₀).graph.entry.isSome := by
    have hb : isReachable F b = true := by simp [isReachable, hbs]
    rw [hbs, List.foldl_cons]
    exact List.foldlRecOn (motive := fun s : Building B I => s.graph.entry.isSome) bs _
      (entry_visitBlock recursively threads b _ (Or.inl hb))
      fun s hs b _ => entry_visitBlock recursively threads b s (Or.inr hs)
  generalize hs : F.blocks.foldl (visitBlock F recursively threads) s₀ = s at hvalid hentry
  -- then the edges, which are no new blocks
  obtain ⟨hg, -, hsame⟩ := List.foldlRecOn F.blocks
    (motive := fun g : Graph B I => g.WellFormed ∧ g.size = s.graph.size ∧ g.entry = s.graph.entry)
    (addEdges F s.instToBlockMap) ⟨hvalid.wellFormed, rfl, rfl⟩ fun g hg b _ => by
      obtain ⟨h, hsize, hentry⟩ := wellFormed_addEdges (F := F) hvalid.instToBlockMap hg.1 hg.2.1 b
      exact ⟨h, hsize, hentry.trans hg.2.2⟩
  have hsplit : splitBlocks F recursively threads =
      F.blocks.foldl (addEdges F s.instToBlockMap) s.graph := by
    rw [← hs]
    rfl
  rw [hsplit, hsame]
  exact ⟨hg, Option.isSome_iff_exists.1 hentry⟩

end Split

end

/-! ## Every component has a way on, or gets an edge to the exit -/

section Close

variable {B I : Type}

/-- Along the edges between blocks. -/
abbrev Graph.Reach (g : Graph B I) : Nat → Nat → Prop :=
  Relation.ReflTransGen fun x y => y ∈ g.successors x

/-- `x` gets an edge to the exit, for the component with the number `i`. -/
def Closes (O : Order Nat) (g : Graph B I) (t : Tarjan.State Nat) (i x : Nat) : Prop :=
  ∃ C, t.components[i]? = some C ∧ isExit C = false ∧ condensation O g t C = [] ∧
    C.getLast? = some x

variable {O : Order Nat} {g : Graph B I} {t : Tarjan.State Nat}

theorem mem_closeComponent {g' : Graph B I} {i x y : Nat} :
    y ∈ (closeComponent O g t g' i).successors x ↔
      y ∈ g'.successors x ∨ (Closes O g t i x ∧ y = Graph.exit) := by
  rw [closeComponent]
  split
  · next C hC =>
      have hcloses : Closes O g t i x ↔ isExit C = false ∧ condensation O g t C = [] ∧
          C.getLast? = some x := by
        simp [Closes, hC]
      rw [hcloses]
      split
      · next hclose =>
          rw [Bool.and_eq_true, Bool.not_eq_true', List.isEmpty_iff] at hclose
          split
          · next back hback =>
              rw [Graph.mem_addSuccessor, hback]
              simp [hclose, eq_comm]
          · next hback => simp [hback]
      · next hclose =>
          -- a way on, or the exit itself
          rw [Bool.and_eq_true, Bool.not_eq_true', List.isEmpty_iff] at hclose
          refine (or_iff_left ?_).symm
          rintro ⟨⟨h1, h2, -⟩, -⟩
          exact hclose ⟨h1, h2⟩
  · next hC =>
      refine (or_iff_left ?_).symm
      rintro ⟨⟨C, hC', -⟩, -⟩
      rw [hC] at hC'
      cases hC'

theorem mem_foldl_closeComponent {x y : Nat} (l : List Nat) : ∀ g' : Graph B I,
    y ∈ (l.foldl (closeComponent O g t) g').successors x ↔
      y ∈ g'.successors x ∨ ((∃ i ∈ l, Closes O g t i x) ∧ y = Graph.exit) := by
  induction l with
  | nil => intro g'; simp
  | cons i l ih =>
      intro g'
      rw [List.foldl_cons, ih, mem_closeComponent]
      constructor
      · rintro ((h | ⟨h, rfl⟩) | ⟨⟨j, hj, h⟩, rfl⟩)
        · exact Or.inl h
        · exact Or.inr ⟨⟨i, List.mem_cons_self, h⟩, rfl⟩
        · exact Or.inr ⟨⟨j, List.mem_cons_of_mem _ hj, h⟩, rfl⟩
      · rintro (h | ⟨⟨j, hj, h⟩, rfl⟩)
        · exact Or.inl (Or.inl h)
        · obtain rfl | hj := List.mem_cons.1 hj
          · exact Or.inl (Or.inr ⟨h, rfl⟩)
          · exact Or.inr ⟨⟨j, hj, h⟩, rfl⟩

theorem closeComponent_eq (g' : Graph B I) (i : Nat) :
    closeComponent O g t g' i = g' ∨
      ∃ x, Closes O g t i x ∧ closeComponent O g t g' i = g'.addSuccessor x Graph.exit := by
  rw [closeComponent]
  split
  · next C hC =>
      split
      · next hclose =>
          rw [Bool.and_eq_true, Bool.not_eq_true', List.isEmpty_iff] at hclose
          split
          · next back hback => exact Or.inr ⟨back, ⟨C, hC, hclose.1, hclose.2, hback⟩, rfl⟩
          · exact Or.inl rfl
      · exact Or.inl rfl
  · exact Or.inl rfl

theorem wellFormed_foldl_closeComponent (hcloses : ∀ i x, Closes O g t i x → 0 < x ∧ x < g.size)
    (hg : g.WellFormed) (l : List Nat) :
    (l.foldl (closeComponent O g t) g).WellFormed ∧
      (l.foldl (closeComponent O g t) g).size = g.size ∧
      (l.foldl (closeComponent O g t) g).entry = g.entry := by
  refine List.foldlRecOn
    (motive := fun g' : Graph B I => g'.WellFormed ∧ g'.size = g.size ∧ g'.entry = g.entry) l _
    ⟨hg, rfl, rfl⟩ ?_
  rintro g' ⟨hg', hsize, hentry⟩ i -
  obtain heq | ⟨x, hx, heq⟩ := closeComponent_eq (O := O) (g := g) (t := t) g' i
  · rw [heq]
    exact ⟨hg', hsize, hentry⟩
  · rw [heq]
    obtain ⟨hpos, hlt⟩ := hcloses i x hx
    exact ⟨hg'.addSuccessor hpos (hsize.symm ▸ hlt) hg'.size_pos, hsize, hentry⟩

section Components

variable {e : Nat} (hg : g.WellFormed)
  (ht : Tarjan.Components (fun x => O.toList (g.successors x)) e t)
include hg ht

omit hg ht in
theorem reach_iff {x y : Nat} :
    Tarjan.Reach (fun x => O.toList (g.successors x)) x y ↔ g.Reach x y := by
  have hrel : (fun x y => y ∈ O.toList (g.successors x)) = fun x y => y ∈ g.successors x := by
    funext x y
    rw [O.mem_toList]
  rw [Tarjan.Reach, hrel]

omit ht in
theorem lt_size_of_reach {x : Nat} (he : e < g.size) (hx : g.Reach e x) : x < g.size := by
  cases hx with
  | refl => exact he
  | tail _ hxy => exact (hg.closed _ _ hxy).2

/-- The component of the exit is the exit alone. -/
theorem isExit_of_mem {C : List Nat} (hC : C ∈ t.components) (hexit : Graph.exit ∈ C) :
    isExit C = true := by
  obtain ⟨r, hr, hreach⟩ := ht.invariant.strong C hC
  -- the exit leads nowhere
  have honly : ∀ x, g.Reach Graph.exit x → x = Graph.exit := by
    intro x hx
    cases Relation.ReflTransGen.cases_head hx with
    | inl h => exact h.symm
    | inr h =>
        obtain ⟨y, hy, -⟩ := h
        rw [hg.exit] at hy
        exact absurd hy (Finset.notMem_empty y)
  have hroot : r = Graph.exit := honly r (reach_iff.1 (hreach _ hexit).1)
  have hall : ∀ x ∈ C, x = Graph.exit := fun x hx =>
    honly x (reach_iff.1 (hroot ▸ (hreach x hx).2))
  have hlen : C.length = 1 := by
    have hrep := List.eq_replicate_of_mem hall
    have hnodup := ht.invariant.nodup C hC
    rw [hrep, List.nodup_replicate] at hnodup
    have := List.length_pos_of_mem hexit
    omega
  simp [isExit, hlen, hr, hroot]

/-- Who gets an edge to the exit is another block, which the entry reaches. -/
theorem closes_spec (he : e < g.size) {i x : Nat} (hx : Closes O g t i x) :
    0 < x ∧ x < g.size := by
  obtain ⟨C, hC, hexit, -, hlast⟩ := hx
  have hmem : x ∈ C := List.mem_of_getLast? hlast
  have hreach := (ht.reachable x).1 ⟨i, (ht.invariant.members x i).2 ⟨C, hC, hmem⟩⟩
  refine ⟨Nat.pos_of_ne_zero ?_, lt_size_of_reach hg he (reach_iff.1 hreach)⟩
  rintro rfl
  rw [isExit_of_mem hg ht (List.mem_of_getElem? hC) hmem] at hexit
  cases hexit

omit hg in
/-- **Every component reaches the exit**, by induction on the order in which they are complete. -/
theorem reach_exit {g' : Graph B I}
    (hsucc : ∀ x y, y ∈ g'.successors x ↔ y ∈ g.successors x ∨
      ((∃ i, Closes O g t i x) ∧ y = Graph.exit)) :
    ∀ (n i : Nat) {x : Nat}, i < n → t.component x = some i → g'.Reach x Graph.exit := by
  have hmono : ∀ {x y}, g.Reach x y → g'.Reach x y := fun h =>
    Relation.ReflTransGen.mono (fun x y hxy => (hsucc x y).2 (Or.inl hxy)) _ _ h
  intro n
  induction n with
  | zero => exact fun i x hi => absurd hi (Nat.not_lt_zero i)
  | succ n ih =>
      intro i x hi hx
      obtain ⟨C, hC, hxC⟩ := (ht.invariant.members x i).1 hx
      obtain ⟨r, hr, hstrong⟩ := ht.invariant.strong C (List.mem_of_getElem? hC)
      have hxr := hmono (reach_iff.1 (hstrong x hxC).1)
      by_cases hexit : isExit C = true
      · -- the exit itself
        rw [isExit, Bool.and_eq_true, beq_iff_eq, hr] at hexit
        obtain rfl := Option.some.inj hexit.2
        exact hxr
      · by_cases hcond : condensation O g t C = []
        · have hcloses : Closes O g t i r := ⟨C, hC, Bool.eq_false_iff.2 hexit, hcond, hr⟩
          exact hxr.tail ((hsucc r Graph.exit).2 (Or.inr ⟨⟨i, hcloses⟩, rfl⟩))
        · -- an edge leads to a component that was complete before
          obtain ⟨j, hj⟩ := List.exists_mem_of_ne_nil _ hcond
          obtain ⟨u, hu, hj⟩ := List.mem_flatMap.1 hj
          obtain ⟨v, hv, hj⟩ := List.mem_filterMap.1 hj
          have hui : t.component u = some i := (ht.invariant.members u i).2 ⟨C, hC, hu⟩
          split at hj
          · next hne =>
              obtain ⟨k, hki, hk⟩ := ht.invariant.closed u i hui v hv
              have hlt : k < i := by
                refine lt_of_le_of_ne hki ?_
                rintro rfl
                exact hne (hui.trans hk.symm)
              have hru := hmono (reach_iff.1 (hstrong u hu).2)
              have huv := (hsucc u v).2 (Or.inl ((O.mem_toList _ _).1 hv))
              exact ((hxr.trans hru).tail huv).trans (ih k (by omega) hk)
          · cases hj

omit hg in
/-- A component that no edge leaves is not left. -/
theorem reach_in_component {i x y : Nat} {C : List Nat} (hC : t.components[i]? = some C)
    (hcond : condensation O g t C = []) (hx : x ∈ C) (hxy : g.Reach x y) : y ∈ C := by
  induction hxy with
  | refl => exact hx
  | @tail u v _ huv ih =>
      have hu := (ht.invariant.members u i).2 ⟨C, hC, ih⟩
      have hv : v ∈ O.toList (g.successors u) := (O.mem_toList _ _).2 huv
      obtain ⟨j, -, hj⟩ := ht.invariant.closed u i hu v hv
      by_cases hij : t.component u = t.component v
      · rw [hu] at hij
        obtain ⟨D, hD, hvD⟩ := (ht.invariant.members v i).1 hij.symm
        rw [hC] at hD
        obtain rfl := Option.some.inj hD
        exact hvD
      · -- the edge would be one of the condensation
        have hmem : j ∈ condensation O g t C := by
          refine List.mem_flatMap.2 ⟨u, ih, List.mem_filterMap.2 ⟨v, hv, ?_⟩⟩
          rw [if_pos hij, hj]
        rw [hcond] at hmem
        exact absurd hmem List.not_mem_nil

/-- A block that gets an edge to the exit does not reach it yet: no edge leaves its component. -/
theorem not_reach_of_closes {i x : Nat} (hx : Closes O g t i x) : ¬ g.Reach x Graph.exit := by
  obtain ⟨C, hC, hexit, hcond, hlast⟩ := hx
  intro hreach
  have hstay := reach_in_component ht hC hcond (List.mem_of_getLast? hlast) hreach
  rw [isExit_of_mem hg ht (List.mem_of_getElem? hC) hstay] at hexit
  cases hexit

omit hg in
/-- Of the blocks of a component one gets the edge. -/
theorem eq_of_closes {i j x y : Nat} (hx : Closes O g t i x) (hy : Closes O g t j y)
    (hxy : g.Reach x y) : x = y := by
  obtain ⟨C, hC, -, hcond, hlast⟩ := hx
  obtain ⟨D, hD, -, -, hlast'⟩ := hy
  have hyC := reach_in_component ht hC hcond (List.mem_of_getLast? hlast) hxy
  have hi := (ht.invariant.members y i).2 ⟨C, hC, hyC⟩
  have hj := (ht.invariant.members y j).2 ⟨D, hD, List.mem_of_getLast? hlast'⟩
  rw [hi] at hj
  obtain rfl := Option.some.inj hj
  rw [hC] at hD
  obtain rfl := Option.some.inj hD
  rw [hlast] at hlast'
  exact Option.some.inj hlast'

end Components

section Build

variable [DecidableEq B] [DecidableEq I] (F : LLVMFunction B I) (O : Order Nat)
  (recursively threads : Bool)

/-- **The graph is built**: it has the edges from before, and one to the exit from every block that is
the last one of a component without a way on. -/
theorem buildFunction_spec {fuel : Nat} (hfuel : (splitBlocks F recursively threads).size ≤ fuel) :
    ∃ (g : Graph B I) (t : Tarjan.State Nat) (e : Nat),
      buildFunction F O recursively threads fuel = some g ∧ g.WellFormed ∧
      g.size = (splitBlocks F recursively threads).size ∧ g.entry = some e ∧
      Tarjan.Components
        (fun x => O.toList ((splitBlocks F recursively threads).successors x)) e t ∧
      ∀ x y, y ∈ g.successors x ↔ y ∈ (splitBlocks F recursively threads).successors x ∨
        ((∃ i, Closes O (splitBlocks F recursively threads) t i x) ∧ y = Graph.exit) := by
  obtain ⟨hg, e, he⟩ := splitBlocks_spec F recursively threads
  generalize hsplit : splitBlocks F recursively threads = g at hg he hfuel ⊢
  have hesize := hg.entry e he
  have hV : ∀ x ∈ Finset.range g.size, ∀ y ∈ O.toList (g.successors x), y ∈ Finset.range g.size :=
    fun x _ y hy => Finset.mem_range.2 (hg.closed x y ((O.mem_toList _ _).1 hy)).2
  obtain ⟨t, hrun, ht⟩ := Tarjan.exists_components hV (Finset.mem_range.2 hesize)
    ((Finset.card_range g.size).trans_le hfuel)
  obtain ⟨hg', hsize, hentry⟩ := wellFormed_foldl_closeComponent
    (fun i x hx => closes_spec hg ht hesize hx) hg (O.toList (Finset.range t.components.length))
  have hsucc := fun x y => mem_foldl_closeComponent (O := O) (g := g) (t := t) (x := x) (y := y)
    (O.toList (Finset.range t.components.length)) g
  generalize hbuilt : (O.toList (Finset.range t.components.length)).foldl (closeComponent O g t) g
    = g' at hg' hsize hentry hsucc
  refine ⟨g', t, e, ?_, hg', hsize, hentry.trans he, ht, fun x y => ?_⟩
  · simp only [buildFunction, hsplit, he, Option.bind_eq_bind, Option.bind_some, hrun, hbuilt]
  · rw [hsucc]
    refine or_congr_right (and_congr_left fun _ => exists_congr fun i => and_iff_right_of_imp ?_)
    rintro ⟨C, hC, -⟩
    rw [O.mem_toList, Finset.mem_range]
    exact (List.getElem?_eq_some_iff.1 hC).1

/-- **The graph is built, and every block that the entry reaches, reaches the exit.** -/
theorem exists_buildFunction {fuel : Nat}
    (hfuel : (splitBlocks F recursively threads).size ≤ fuel) :
    ∃ g : Graph B I, buildFunction F O recursively threads fuel = some g ∧ g.WellFormed ∧
      g.size = (splitBlocks F recursively threads).size ∧
      ∃ e, g.entry = some e ∧ ∀ x, g.Reach e x → g.Reach x Graph.exit := by
  obtain ⟨g', t, e, hbuild, hg', hsize, he, ht, hall⟩ :=
    buildFunction_spec F O recursively threads hfuel
  have hexit := (splitBlocks_spec F recursively threads).1.exit
  refine ⟨g', hbuild, hg', hsize, e, he, fun x hx => ?_⟩
  -- what the entry reaches now it reached before, or it is the exit
  have hbefore : (splitBlocks F recursively threads).Reach e x ∨ x = Graph.exit := by
    induction hx with
    | refl => exact Or.inl .refl
    | @tail y z _ hyz ih =>
        obtain hyz | ⟨-, rfl⟩ := (hall y z).1 hyz
        · obtain hy | rfl := ih
          · exact Or.inl (hy.tail hyz)
          · rw [hexit] at hyz
            exact absurd hyz (Finset.notMem_empty z)
        · exact Or.inr rfl
  obtain hx | rfl := hbefore
  · obtain ⟨i, hi⟩ := (ht.reachable x).2 (reach_iff.2 hx)
    exact reach_exit ht hall (i + 1) i (Nat.lt_succ_self i) hi
  · exact .refl

/-- **Every loop gets an exit, and nothing else changes.** Every block that the entry reaches, reaches
the exit. A block that did so before has the edges that it had; another one has at most an edge to the
exit in addition, and of the blocks of a component without a way on only one has it. -/
theorem every_loop_exits (extra : Nat) :
    ∃ (g : Graph B I) (e : Nat),
      buildFunction F O recursively threads ((splitBlocks F recursively threads).size + extra) =
        some g ∧ g.entry = some e ∧
      (∀ x, g.Reach e x → g.Reach x Graph.exit) ∧
      (∀ x, (splitBlocks F recursively threads).Reach x Graph.exit →
        g.successors x = (splitBlocks F recursively threads).successors x) ∧
      (∀ x, g.successors x ≠ (splitBlocks F recursively threads).successors x →
        g.successors x = insert Graph.exit ((splitBlocks F recursively threads).successors x)) ∧
      ∀ x y, g.successors x ≠ (splitBlocks F recursively threads).successors x →
        g.successors y ≠ (splitBlocks F recursively threads).successors y →
        (splitBlocks F recursively threads).Reach x y → x = y := by
  have hfuel : (splitBlocks F recursively threads).size ≤
      (splitBlocks F recursively threads).size + extra := Nat.le_add_right _ _
  obtain ⟨g, t, e, hbuild, -, -, he, ht, hall⟩ := buildFunction_spec F O recursively threads hfuel
  obtain ⟨g', hbuild', -, -, e', he', hexit⟩ := exists_buildFunction F O recursively threads hfuel
  rw [hbuild] at hbuild'
  obtain rfl := Option.some.inj hbuild'
  rw [he] at he'
  obtain rfl := Option.some.inj he'
  have hg := (splitBlocks_spec F recursively threads).1
  -- a block that gets no edge is as it was
  have hsame : ∀ x, (¬ ∃ i, Closes O (splitBlocks F recursively threads) t i x) →
      g.successors x = (splitBlocks F recursively threads).successors x := by
    intro x hnone
    ext y
    rw [hall]
    exact or_iff_left fun h => hnone h.1
  have hcloses : ∀ x, g.successors x ≠ (splitBlocks F recursively threads).successors x →
      ∃ i, Closes O (splitBlocks F recursively threads) t i x :=
    fun x hx => by_contra fun hnone => hx (hsame x hnone)
  refine ⟨g, e, hbuild, he, hexit, fun x hx => ?_, fun x hx => ?_, fun x y hx hy hxy => ?_⟩
  · apply hsame
    rintro ⟨i, hi⟩
    exact not_reach_of_closes hg ht hi hx
  · ext y
    rw [hall, Finset.mem_insert, or_comm]
    exact or_congr_left (and_iff_right (hcloses x hx))
  · -- both are the last one of a component, and the component is the same
    obtain ⟨i, hi⟩ := hcloses x hx
    obtain ⟨j, hj⟩ := hcloses y hy
    exact eq_of_closes ht hi hj hxy

end Build

end Close

end Cape.ControlDependence.Legacy
