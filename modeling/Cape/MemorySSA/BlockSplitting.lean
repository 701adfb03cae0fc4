import Cape.Library.ChainSplit
import Cape.Library.FallibleLoop
import Cape.MemorySSA.ReadWriteGraph

/-!
# Blocks are split around calls

`splitBBlocksOnCalls` splits the blocks of a subgraph until each call is alone in its block, but for the
calls of one undefined function. One split replaces a block by a chain of at most three blocks
(`SplitsInto`). In every run the edges and the places of the nodes stay consistent, and the same nodes
follow one another on the paths through the blocks (`splitBBlocksOnCalls_preserves`).
-/

set_option autoImplicit false

namespace Cape.MemorySSA

open Cape.Library

universe u w

/-- The blocks, `RWBBlock`, by number, and the block that every node is in. Blocks from `count` on are
not there yet. -/
structure Blocks (N : Type u) where
  count : Nat
  getNodes : Nat → List N
  successors : Nat → List Nat
  predecessors : Nat → List Nat
  getBBlock : N → Option Nat

/-- `RWSubgraph`, with its blocks in the order of the vector. -/
structure RWSubgraph (N : Type u) where
  blocks : Blocks N
  bblocks : List Nat

/-- `callsOneUndefined`. -/
def callsOneUndefined {N : Type u} {S : Type w} : List (CalledValue N S) → Bool
  | [.calledValue _] => true
  | _ => false

namespace Blocks

variable {N : Type u}

def empty : Blocks N := ⟨0, fun _ => [], fun _ => [], fun _ => [], fun _ => none⟩

/-- `new RWBBlock`. -/
def newBlock (g : Blocks N) : Blocks N := { g with count := g.count + 1 }

variable [DecidableEq N]

def append (g : Blocks N) (b : Nat) (n : N) : Blocks N :=
  { g with
    getNodes := Function.update g.getNodes b (g.getNodes b ++ [n])
    getBBlock := Function.update g.getBBlock n (some b) }

theorem getNodes_append (g : Blocks N) (b : Nat) (n : N) (c : Nat) :
    (g.append b n).getNodes c = if c = b then g.getNodes b ++ [n] else g.getNodes c := by
  simp [append, Function.update_apply]

theorem getBBlock_append (g : Blocks N) (b : Nat) (n m : N) :
    (g.append b n).getBBlock m = if m = n then some b else g.getBBlock m := by
  simp [append, Function.update_apply]

def appendAll (g : Blocks N) (b : Nat) (ns : List N) : Blocks N :=
  ns.foldl (fun g n => g.append b n) g

omit [DecidableEq N] in
/-- `getNodes().resize`, to at most the number of nodes. -/
def resize (g : Blocks N) (b num : Nat) : Blocks N :=
  { g with getNodes := Function.update g.getNodes b ((g.getNodes b).take num) }

omit [DecidableEq N] in
def addSuccessor (g : Blocks N) (b s : Nat) : Blocks N :=
  if s ∈ g.successors b then g
  else
    let g := { g with successors := Function.update g.successors b (g.successors b ++ [s]) }
    if b ∈ g.predecessors s then g
    else { g with predecessors := Function.update g.predecessors s (g.predecessors s ++ [b]) }

omit [DecidableEq N] in
/-- The loop over the predecessors of a successor of `b`. -/
def reconnect (last b : Nat) (g : Blocks N) (s : Nat) : Blocks N :=
  { g with
    predecessors := Function.update g.predecessors s
      ((g.predecessors s).map fun p => if p = b then last else p) }

omit [DecidableEq N] in
/-- The successors of `b` become those of the last block. -/
def moveSuccessors (g : Blocks N) (b last : Nat) : Blocks N :=
  let g := (g.successors b).foldl (reconnect last b) g
  { g with
    successors :=
      Function.update (Function.update g.successors last (g.successors b)) b (g.successors last) }

/-- `splitAround`: the node stays in the block if it is the first one there. -/
def splitAround (g : Blocks N) (b : Nat) (node : N) : Blocks N × Option Nat × Option Nat :=
  if (g.getNodes b).length = 1 then (g, none, none)
  else
    let num := (g.getNodes b).idxOf node
    let rest := (g.getNodes b).drop (num + 1)
    let after := if rest.isEmpty then none else some g.count
    let g := if rest.isEmpty then g else g.newBlock.appendAll g.count rest
    let withnode := if 0 < num then some g.count else none
    let g := if 0 < num then (g.newBlock.append g.count node).resize b num else g.resize b 1
    match withnode, after with
    | some w, some a =>
        (((g.moveSuccessors b a).addSuccessor b w).addSuccessor w a, withnode, after)
    | some w, none => ((g.moveSuccessors b w).addSuccessor b w, withnode, after)
    | none, some a => ((g.moveSuccessors b a).addSuccessor b a, withnode, after)
    | none, none => (g, withnode, after)

variable {S : Type w} (getCallees : N → Option (List (CalledValue N S)))

omit [DecidableEq N] in
/-- A call that its block is split around. -/
def isSplit (n : N) : Bool :=
  match getCallees n with
  | some callees => !callsOneUndefined callees
  | none => false

/-- `splitBlockOnFirstCall`: with the blocks that are new, and the block with the nodes behind the
call. -/
def splitBlockOnFirstCall (g : Blocks N) (newblocks : List Nat) (block : Nat) :
    Blocks N × List Nat × Option Nat :=
  match (g.getNodes block).find? (isSplit getCallees) with
  | some node =>
      let r := g.splitAround block node
      (r.1, newblocks ++ r.2.1.toList ++ r.2.2.toList, r.2.2)
  | none => (g, newblocks, none)

/-- The loop for one of the blocks; `none` when the fuel is spent. -/
def splitBlock : Nat → Blocks N × List Nat → Nat → Option (Blocks N × List Nat)
  | 0, _, _ => none
  | fuel + 1, (g, newblocks), cur =>
      let r := g.splitBlockOnFirstCall getCallees newblocks cur
      match r.2.2 with
      | some next => splitBlock fuel (r.1, r.2.1) next
      | none => some (r.1, r.2.1)

end Blocks

/-- `splitBBlocksOnCalls`. -/
def splitBBlocksOnCalls {N : Type u} [DecidableEq N] {S : Type w}
    (getCallees : N → Option (List (CalledValue N S))) (fuel : Nat) (G : RWSubgraph N) :
    Option (RWSubgraph N) :=
  if G.bblocks.length = 0 then some G
  else do
    let s ← G.bblocks.foldlM (Blocks.splitBlock getCallees fuel) (G.blocks, [])
    some ⟨s.1, G.bblocks ++ s.2⟩

namespace Blocks

variable {N : Type u}

/-! ## Edges -/

/-- The lists of successors and predecessors say the same, and nothing twice. -/
structure EdgesConsistent (g : Blocks N) : Prop where
  lt : ∀ b, ∀ s ∈ g.successors b, b < g.count ∧ s < g.count
  successors_nodup : ∀ b, (g.successors b).Nodup
  predecessors_nodup : ∀ b, (g.predecessors b).Nodup
  consistent : ∀ b s, b ∈ g.predecessors s ↔ s ∈ g.successors b

theorem EdgesConsistent.empty : (empty : Blocks N).EdgesConsistent where
  lt _ _ hs := absurd hs List.not_mem_nil
  successors_nodup _ := .nil
  predecessors_nodup _ := .nil
  consistent _ _ := iff_of_false List.not_mem_nil List.not_mem_nil

/-- The edges depend on the lists only. -/
theorem EdgesConsistent.congr {g g' : Blocks N} (h : g.EdgesConsistent) (hle : g.count ≤ g'.count)
    (hsucc : g'.successors = g.successors) (hpred : g'.predecessors = g.predecessors) :
    g'.EdgesConsistent where
  lt b s hs := by
    rw [hsucc] at hs
    rcases h.lt b s hs with ⟨hb, hs⟩
    exact ⟨hb.trans_le hle, hs.trans_le hle⟩
  successors_nodup b := hsucc ▸ h.successors_nodup b
  predecessors_nodup b := hpred ▸ h.predecessors_nodup b
  consistent b s := by
    rw [hsucc, hpred]
    exact h.consistent b s

/-- There are no edges at a block that is not there yet. -/
theorem EdgesConsistent.successors_fresh {g : Blocks N} (h : g.EdgesConsistent) {c : Nat}
    (hc : g.count ≤ c) : g.successors c = [] := by
  apply List.eq_nil_iff_forall_not_mem.2
  intro s hs
  exact absurd (h.lt c s hs).1 (not_lt.2 hc)

theorem count_addSuccessor (g : Blocks N) (b s : Nat) : (g.addSuccessor b s).count = g.count := by
  rw [addSuccessor]
  split
  · rfl
  · dsimp only
    split <;> rfl

theorem successors_addSuccessor (g : Blocks N) (b s c : Nat) :
    (g.addSuccessor b s).successors c =
      if c = b ∧ s ∉ g.successors b then g.successors b ++ [s] else g.successors c := by
  rw [addSuccessor]
  by_cases hs : s ∈ g.successors b
  · simp [hs]
  · -- the list of predecessors makes no difference here
    have hsucc : ∀ g' : Blocks N, g'.successors = Function.update g.successors b
        (g.successors b ++ [s]) → g'.successors c =
          if c = b ∧ s ∉ g.successors b then g.successors b ++ [s] else g.successors c := by
      intro g' hg'
      rw [hg']
      by_cases hc : c = b
      · subst hc
        simp [hs]
      · simp [hc]
    rw [if_neg hs]
    dsimp only
    split
    · exact hsucc _ rfl
    · exact hsucc _ rfl

theorem predecessors_addSuccessor (g : Blocks N) (b s c : Nat) :
    (g.addSuccessor b s).predecessors c =
      if c = s ∧ s ∉ g.successors b ∧ b ∉ g.predecessors s then g.predecessors s ++ [b]
      else g.predecessors c := by
  rw [addSuccessor]
  by_cases hs : s ∈ g.successors b
  · simp [hs]
  · rw [if_neg hs]
    dsimp only
    by_cases hb : b ∈ g.predecessors s
    · simp [hb]
    · rw [if_neg hb]
      by_cases hc : c = s
      · subst hc
        simp [hs, hb]
      · simp [hc]

/-- `addSuccessor` keeps the lists consistent. -/
theorem EdgesConsistent.addSuccessor {g : Blocks N} (h : g.EdgesConsistent) {b s : Nat}
    (hb : b < g.count) (hs : s < g.count) : (g.addSuccessor b s).EdgesConsistent where
  lt c t ht := by
    rw [count_addSuccessor]
    rw [successors_addSuccessor] at ht
    split at ht
    · next hc =>
        rcases List.mem_append.1 ht with ht | ht
        · rw [hc.1]
          exact h.lt b t ht
        · rw [hc.1, List.mem_singleton.1 ht]
          exact ⟨hb, hs⟩
    · exact h.lt c t ht
  successors_nodup c := by
    rw [successors_addSuccessor]
    split
    · next hc =>
        rw [← List.concat_eq_append]
        exact (h.successors_nodup b).concat hc.2
    · exact h.successors_nodup c
  predecessors_nodup c := by
    rw [predecessors_addSuccessor]
    split
    · next hc =>
        rw [← List.concat_eq_append]
        exact (h.predecessors_nodup s).concat hc.2.2
    · exact h.predecessors_nodup c
  consistent c t := by
    rw [successors_addSuccessor, predecessors_addSuccessor]
    by_cases hedge : s ∈ g.successors b
    · -- the edge is there, and nothing is added
      simp only [hedge, not_true, and_false, false_and, if_false]
      exact h.consistent c t
    · have hedge' : b ∉ g.predecessors s := fun hbs => hedge ((h.consistent b s).1 hbs)
      by_cases hc : c = b
      · subst hc
        by_cases ht : t = s
        · subst ht
          simp [hedge, hedge']
        · simp [ht, hedge, h.consistent]
      · by_cases ht : t = s
        · subst ht
          simp [hc, hedge, hedge', h.consistent]
        · simp [hc, ht, h.consistent]

theorem foldl_reconnect (last b : Nat) (l : List Nat) (g : Blocks N) :
    (l.foldl (reconnect last b) g).count = g.count ∧
    (l.foldl (reconnect last b) g).getNodes = g.getNodes ∧
    (l.foldl (reconnect last b) g).getBBlock = g.getBBlock ∧
    (l.foldl (reconnect last b) g).successors = g.successors ∧
    ∀ s, (l.foldl (reconnect last b) g).predecessors s =
      if s ∈ l then (g.predecessors s).map fun p => if p = b then last else p
      else g.predecessors s := by
  induction l generalizing g with
  | nil => exact ⟨rfl, rfl, rfl, rfl, fun s => rfl⟩
  | cons t l ih =>
      rcases ih (reconnect last b g t) with ⟨hcount, hnodes, hblock, hsucc, hpred⟩
      refine ⟨hcount, hnodes, hblock, hsucc, fun s => ?_⟩
      rw [List.foldl_cons, hpred]
      show (if s ∈ l then List.map _ (Function.update g.predecessors t _ s)
        else Function.update g.predecessors t _ s) = _
      by_cases hst : s = t
      · subst hst
        rw [Function.update_self, if_pos List.mem_cons_self]
        split
        · -- what is replaced is not replaced again
          rw [List.map_map]
          apply List.map_congr_left
          intro p _
          by_cases hp : p = b
          · by_cases hlast : last = b
            · simp [hp, hlast]
            · simp [hp, hlast]
          · simp [hp]
        · rfl
      · rw [Function.update_of_ne hst]
        simp [hst]

theorem successors_moveSuccessors (g : Blocks N) (b last c : Nat) :
    (g.moveSuccessors b last).successors c =
      if c = b then g.successors last else if c = last then g.successors b else g.successors c := by
  rcases foldl_reconnect last b (g.successors b) g with ⟨-, -, -, hsucc, -⟩
  show Function.update (Function.update _ last _) b _ c = _
  rw [hsucc]
  by_cases hb : c = b
  · subst hb
    simp
  · rw [Function.update_of_ne hb, if_neg hb]
    by_cases hlast : c = last
    · subst hlast
      simp
    · rw [Function.update_of_ne hlast, if_neg hlast]

/-- The edges of `b` move to a block without edges. -/
theorem EdgesConsistent.moveSuccessors {g : Blocks N} (h : g.EdgesConsistent) {b last : Nat}
    (hb : b < g.count) (hlast : last < g.count) (hne : last ≠ b) (hnone : g.successors last = []) :
    (g.moveSuccessors b last).EdgesConsistent := by
  rcases foldl_reconnect last b (g.successors b) g with ⟨hcount, -, -, -, hpred⟩
  have hcount : (g.moveSuccessors b last).count = g.count := hcount
  have hpred : ∀ s, (g.moveSuccessors b last).predecessors s = if s ∈ g.successors b then
      (g.predecessors s).map fun p => if p = b then last else p else g.predecessors s := hpred
  have hnotin : ∀ s, last ∉ g.predecessors s := by
    intro s hs
    rw [h.consistent, hnone] at hs
    exact absurd hs List.not_mem_nil
  constructor
  case lt =>
    intro c s hs
    rw [hcount]
    rw [successors_moveSuccessors] at hs
    split at hs
    · rw [hnone] at hs
      exact absurd hs List.not_mem_nil
    · split at hs
      · next hc =>
          rw [hc]
          exact ⟨hlast, (h.lt b s hs).2⟩
      · exact h.lt c s hs
  case successors_nodup =>
    intro c
    rw [successors_moveSuccessors]
    split
    · exact h.successors_nodup last
    · split
      · exact h.successors_nodup b
      · exact h.successors_nodup c
  case predecessors_nodup =>
    intro s
    rw [hpred]
    split
    · -- the last block is not a predecessor yet
      refine (h.predecessors_nodup s).map_on ?_
      intro p hp q hq hpq
      by_cases hpb : p = b
      · by_cases hqb : q = b
        · rw [hpb, hqb]
        · rw [if_pos hpb, if_neg hqb] at hpq
          exact absurd (hpq ▸ hq) (hnotin s)
      · by_cases hqb : q = b
        · rw [if_neg hpb, if_pos hqb] at hpq
          exact absurd (hpq ▸ hp) (hnotin s)
        · rwa [if_neg hpb, if_neg hqb] at hpq
    · exact h.predecessors_nodup s
  case consistent =>
    intro c s
    rw [hpred, successors_moveSuccessors, hnone]
    by_cases hs : s ∈ g.successors b
    · have hbs := (h.consistent b s).2 hs
      rw [if_pos hs, List.mem_map]
      by_cases hc : c = b
      · subst hc
        rw [if_pos rfl]
        refine iff_of_false ?_ List.not_mem_nil
        rintro ⟨p, hp, hpc⟩
        split at hpc
        · exact hne hpc
        · next hnot => exact hnot hpc
      · rw [if_neg hc]
        by_cases hl : c = last
        · subst hl
          rw [if_pos rfl]
          exact iff_of_true ⟨b, hbs, if_pos rfl⟩ hs
        · rw [if_neg hl, ← h.consistent c s]
          constructor
          · rintro ⟨p, hp, hpc⟩
            split at hpc
            · exact absurd hpc.symm hl
            · exact hpc ▸ hp
          · exact fun hcs => ⟨c, hcs, if_neg hc⟩
    · rw [if_neg hs, h.consistent]
      by_cases hc : c = b
      · subst hc
        rw [if_pos rfl]
        exact iff_of_false hs List.not_mem_nil
      · rw [if_neg hc]
        by_cases hl : c = last
        · subst hl
          rw [if_pos rfl, hnone]
          exact iff_of_false List.not_mem_nil hs
        · rw [if_neg hl]

/-! ## Nodes -/

/-- Each node is in the block that it says, in this one only and once. -/
structure NodesPlaced (g : Blocks N) : Prop where
  lt : ∀ b, g.getNodes b ≠ [] → b < g.count
  nodup : ∀ b, (g.getNodes b).Nodup
  getBBlock : ∀ b n, n ∈ g.getNodes b ↔ g.getBBlock n = some b

theorem NodesPlaced.empty : (empty : Blocks N).NodesPlaced where
  lt _ h := absurd rfl h
  nodup _ := .nil
  getBBlock _ _ := iff_of_false List.not_mem_nil nofun

theorem NodesPlaced.getNodes_fresh {g : Blocks N} (h : g.NodesPlaced) {c : Nat} (hc : g.count ≤ c) :
    g.getNodes c = [] := by
  by_contra hne
  exact absurd (h.lt c hne) (not_lt.2 hc)

/-- The block is replaced by the chain of itself and blocks that are new. -/
structure SplitsInto (g g' : Blocks N) (b : Nat) (fresh : List Nat) : Prop where
  count_le : g.count ≤ g'.count
  mem_fresh : ∀ c, c ∈ fresh ↔ g.count ≤ c ∧ c < g'.count
  nodup : fresh.Nodup
  nodes : (b :: fresh).flatMap g'.getNodes = g.getNodes b
  getNodes_other : ∀ c, c ∉ b :: fresh → g'.getNodes c = g.getNodes c
  getBBlock : ∀ c ∈ b :: fresh, ∀ n ∈ g'.getNodes c, g'.getBBlock n = some c
  getBBlock_other : ∀ n, n ∉ g.getNodes b → g'.getBBlock n = g.getBBlock n
  inner : ∀ l p q m, b :: fresh = l ++ p :: q :: m → g'.successors p = [q]
  last : ∀ l p, b :: fresh = l ++ [p] → g'.successors p = g.successors b
  successors_other : ∀ c, c ∉ b :: fresh → g'.successors c = g.successors c
  edges : g'.EdgesConsistent

namespace SplitsInto

variable {g g' : Blocks N} {b : Nat} {fresh : List Nat}

/-- Nothing is split. -/
theorem refl (hplaced : g.NodesPlaced) (hedges : g.EdgesConsistent) : SplitsInto g g b [] where
  count_le := le_refl _
  mem_fresh c := iff_of_false List.not_mem_nil fun h => by omega
  nodup := .nil
  nodes := by simp
  getNodes_other _ _ := rfl
  getBBlock c _ n hn := (hplaced.getBBlock c n).1 hn
  getBBlock_other _ _ := rfl
  inner l p q m h := by
    have hlength := congrArg List.length h
    simp at hlength
    omega
  last l p h := by
    have hp : p ∈ [b] := by rw [h]; simp
    rw [List.mem_singleton.1 hp]
  successors_other _ _ := rfl
  edges := hedges

theorem nodesPlaced (h : SplitsInto g g' b fresh) (hplaced : g.NodesPlaced) (hb : b < g.count) :
    g'.NodesPlaced := by
  have hin : ∀ n, n ∈ g.getNodes b ↔ ∃ c ∈ b :: fresh, n ∈ g'.getNodes c := fun n => by
    rw [← h.nodes, List.mem_flatMap]
  -- a node of another block is not one of the block that is split
  have hother : ∀ {c n}, c ∉ b :: fresh → g.getBBlock n = some c → n ∉ g.getNodes b := by
    intro c n hc hblock hn
    rw [hplaced.getBBlock, hblock] at hn
    exact hc (Option.some.inj hn ▸ List.mem_cons_self)
  constructor
  case lt =>
    intro c hc
    by_cases hchain : c ∈ b :: fresh
    · rcases List.mem_cons.1 hchain with rfl | hfresh
      · exact hb.trans_le h.count_le
      · exact ((h.mem_fresh c).1 hfresh).2
    · rw [h.getNodes_other c hchain] at hc
      exact (hplaced.lt c hc).trans_le h.count_le
  case nodup =>
    intro c
    by_cases hchain : c ∈ b :: fresh
    · have hnodup := hplaced.nodup b
      rw [← h.nodes, List.nodup_flatMap] at hnodup
      exact hnodup.1 c hchain
    · rw [h.getNodes_other c hchain]
      exact hplaced.nodup c
  case getBBlock =>
    intro c n
    by_cases hchain : c ∈ b :: fresh
    · refine ⟨h.getBBlock c hchain n, fun hblock => ?_⟩
      by_cases hn : n ∈ g.getNodes b
      · rcases (hin n).1 hn with ⟨d, hd, hnd⟩
        have hblock' := h.getBBlock d hd n hnd
        rw [hblock] at hblock'
        rw [Option.some.inj hblock']
        exact hnd
      · -- the node was in the block before
        rw [h.getBBlock_other n hn] at hblock
        rcases List.mem_cons.1 hchain with rfl | hfresh
        · exact absurd ((hplaced.getBBlock c n).2 hblock) hn
        · have hnc := (hplaced.getBBlock c n).2 hblock
          rw [hplaced.getNodes_fresh ((h.mem_fresh c).1 hfresh).1] at hnc
          exact absurd hnc List.not_mem_nil
    · rw [h.getNodes_other c hchain, hplaced.getBBlock]
      constructor
      · intro hblock
        rw [h.getBBlock_other n (hother hchain hblock)]
        exact hblock
      · intro hblock
        by_cases hn : n ∈ g.getNodes b
        · rcases (hin n).1 hn with ⟨d, hd, hnd⟩
          rw [h.getBBlock d hd n hnd] at hblock
          exact absurd (Option.some.inj hblock ▸ hd) hchain
        · rw [h.getBBlock_other n hn] at hblock
          exact hblock

/-- The chain of every block. -/
def parts (b : Nat) (fresh : List Nat) (c : Nat) : List Nat := if c = b then b :: fresh else [c]

theorem mem_parts {b c d : Nat} {fresh : List Nat} :
    d ∈ parts b fresh c ↔ d = c ∨ (c = b ∧ d ∈ fresh) := by
  rw [parts]
  by_cases hc : c = b
  · subst hc
    simp
  · simp [hc]

/-- **One split**: the graph of the blocks with a chain for one of them. -/
theorem chainSplit (h : SplitsInto g g' b fresh) (hedges : g.EdgesConsistent) (hb : b < g.count) :
    ChainSplit (· < g.count) (Edge g.successors) (Edge g'.successors) (parts b fresh) := by
  have hold : ∀ {c}, c < g.count → c ∉ fresh := fun hc hfresh =>
    absurd ((h.mem_fresh _).1 hfresh).1 (not_le.2 hc)
  constructor
  case closed => exact fun c d _ hcd => (hedges.lt c d hcd).2
  case nonempty =>
    intro c _
    rw [parts]
    split
    · exact List.cons_ne_nil _ _
    · exact List.cons_ne_nil _ _
  case nodup =>
    intro c _
    rw [parts]
    split
    · exact List.nodup_cons.2 ⟨hold hb, h.nodup⟩
    · exact List.nodup_singleton c
  case disjoint =>
    intro c d p hc hd hpc hpd
    rcases mem_parts.1 hpc with rfl | ⟨rfl, hfresh⟩
    · rcases mem_parts.1 hpd with rfl | ⟨-, hfresh⟩
      · rfl
      · exact absurd hfresh (hold hc)
    · rcases mem_parts.1 hpd with rfl | ⟨rfl, -⟩
      · exact absurd hfresh (hold hd)
      · rfl
  case inner =>
    intro c l p q m _ hparts q'
    rw [parts] at hparts
    split at hparts
    · rw [Edge, h.inner l p q m hparts, List.mem_singleton]
    · have hlength := congrArg List.length hparts
      simp at hlength
      omega
  case last =>
    intro c l p hc hparts q
    have hedge : q ∈ g'.successors p ↔ q ∈ g.successors c := by
      rw [parts] at hparts
      split at hparts
      · next heq => rw [h.last l p hparts, heq]
      · next hne =>
          have hp : p ∈ [c] := by rw [hparts]; simp
          obtain rfl := List.mem_singleton.1 hp
          rw [h.successors_other p]
          intro hchain
          rcases List.mem_cons.1 hchain with heq | hfresh
          · exact hne heq
          · exact hold hc hfresh
    -- a successor starts its chain
    rw [Edge, hedge]
    constructor
    · intro hq
      refine ⟨q, (parts b fresh q).tail, hq, ?_⟩
      rw [parts]
      split
      · next heq => rw [heq]; rfl
      · rfl
    · rintro ⟨d, m, hd, hparts'⟩
      rw [parts] at hparts'
      split at hparts'
      · next heq => rw [← (List.cons.inj hparts').1, ← heq]; exact hd
      · rw [← (List.cons.inj hparts').1]; exact hd

theorem parts_label (h : SplitsInto g g' b fresh) {c : Nat} (hc : c < g.count) :
    (parts b fresh c).flatMap g'.getNodes = g.getNodes c := by
  rw [parts]
  split
  · next heq => rw [heq, h.nodes]
  · next hne =>
      rw [List.flatMap_cons, List.flatMap_nil, List.append_nil, h.getNodes_other c]
      intro hchain
      rcases List.mem_cons.1 hchain with heq | hfresh
      · exact hne heq
      · exact absurd ((h.mem_fresh c).1 hfresh).1 (not_le.2 hc)

end SplitsInto

/-! ## One split -/

/-- The nodes of the block are distributed over the chain; the edges are those from before. -/
structure MovesNodes (g g' : Blocks N) (b : Nat) (fresh : List Nat) : Prop where
  count_le : g.count ≤ g'.count
  mem_fresh : ∀ c, c ∈ fresh ↔ g.count ≤ c ∧ c < g'.count
  nodes : (b :: fresh).flatMap g'.getNodes = g.getNodes b
  getNodes_other : ∀ c, c ∉ b :: fresh → g'.getNodes c = g.getNodes c
  getBBlock : ∀ c ∈ b :: fresh, ∀ n ∈ g'.getNodes c, g'.getBBlock n = some c
  getBBlock_other : ∀ n, n ∉ g.getNodes b → g'.getBBlock n = g.getBBlock n
  successors : g'.successors = g.successors
  predecessors : g'.predecessors = g.predecessors

/-- The same nodes. -/
structure SameNodes (g g' : Blocks N) : Prop where
  count : g'.count = g.count
  getNodes : g'.getNodes = g.getNodes
  getBBlock : g'.getBBlock = g.getBBlock

theorem SameNodes.trans {g g' g'' : Blocks N} (h : SameNodes g g') (h' : SameNodes g' g'') :
    SameNodes g g'' :=
  ⟨h'.count.trans h.count, h'.getNodes.trans h.getNodes, h'.getBBlock.trans h.getBBlock⟩

theorem sameNodes_addSuccessor (g : Blocks N) (b s : Nat) : SameNodes g (g.addSuccessor b s) := by
  rw [addSuccessor]
  split
  · exact ⟨rfl, rfl, rfl⟩
  · dsimp only
    split
    · exact ⟨rfl, rfl, rfl⟩
    · exact ⟨rfl, rfl, rfl⟩

theorem sameNodes_moveSuccessors (g : Blocks N) (b last : Nat) :
    SameNodes g (g.moveSuccessors b last) := by
  rcases foldl_reconnect last b (g.successors b) g with ⟨hcount, hnodes, hblock, -, -⟩
  exact ⟨hcount, hnodes, hblock⟩

section Link

variable {g g₁ : Blocks N} {b : Nat}

theorem MovesNodes.splitsInto {g' : Blocks N} {fresh : List Nat} (h : MovesNodes g g₁ b fresh)
    (hsame : SameNodes g₁ g') (hnodup : fresh.Nodup)
    (hinner : ∀ l p q m, b :: fresh = l ++ p :: q :: m → g'.successors p = [q])
    (hlast : ∀ l p, b :: fresh = l ++ [p] → g'.successors p = g.successors b)
    (hother : ∀ c, c ∉ b :: fresh → g'.successors c = g.successors c)
    (hedges : g'.EdgesConsistent) : SplitsInto g g' b fresh where
  count_le := hsame.count ▸ h.count_le
  mem_fresh c := by
    rw [hsame.count]
    exact h.mem_fresh c
  nodup := hnodup
  nodes := by
    rw [hsame.getNodes]
    exact h.nodes
  getNodes_other c hc := by
    rw [hsame.getNodes]
    exact h.getNodes_other c hc
  getBBlock c hc n hn := by
    rw [hsame.getNodes] at hn
    rw [hsame.getBBlock]
    exact h.getBBlock c hc n hn
  getBBlock_other n hn := by
    rw [hsame.getBBlock]
    exact h.getBBlock_other n hn
  inner := hinner
  last := hlast
  successors_other := hother
  edges := hedges

/-- The edges around one new block. -/
theorem splitsInto_one (hedges : g.EdgesConsistent) (hb : b < g.count) {x : Nat}
    (h : MovesNodes g g₁ b [x]) :
    SplitsInto g ((g₁.moveSuccessors b x).addSuccessor b x) b [x] := by
  have hx := (h.mem_fresh x).1 List.mem_cons_self
  have hne : x ≠ b := by omega
  have hedges₁ := hedges.congr h.count_le h.successors h.predecessors
  have hnone : g₁.successors x = [] := by
    rw [h.successors]
    exact hedges.successors_fresh hx.1
  have hmove := successors_moveSuccessors g₁ b x
  have hmoved := sameNodes_moveSuccessors g₁ b x
  have hb₁ : b < g₁.count := hb.trans_le h.count_le
  refine h.splitsInto (hmoved.trans (sameNodes_addSuccessor _ b x)) (List.nodup_singleton x)
    ?_ ?_ ?_ ?_
  · intro l p q m hl
    rcases l with - | ⟨y, l⟩
    · -- the block has given its successors away, and gets the new one
      simp only [List.nil_append, List.cons.injEq] at hl
      rcases hl with ⟨rfl, rfl, -⟩
      rw [successors_addSuccessor, hmove, if_pos rfl, hnone]
      simp
    · have hlength := congrArg List.length hl
      simp at hlength
      omega
  · intro l p hl
    have hp : some p = some x := by
      rw [← List.getLast?_concat (l := l) (a := p), ← hl]
      rfl
    obtain rfl := Option.some.inj hp
    rw [successors_addSuccessor, if_neg fun hc => hne hc.1, hmove, if_neg hne, if_pos rfl,
      h.successors]
  · intro c hc
    have hcb : c ≠ b := fun heq => hc (heq ▸ List.mem_cons_self)
    have hcx : c ≠ x := fun heq => hc (heq ▸ List.mem_cons_of_mem b List.mem_cons_self)
    rw [successors_addSuccessor, if_neg fun h => hcb h.1, hmove, if_neg hcb, if_neg hcx,
      h.successors]
  · apply EdgesConsistent.addSuccessor
    · exact hedges₁.moveSuccessors hb₁ hx.2 hne hnone
    · rw [hmoved.count]
      exact hb₁
    · rw [hmoved.count]
      exact hx.2

/-- The edges around two new blocks. -/
theorem splitsInto_two (hedges : g.EdgesConsistent) (hb : b < g.count) {x y : Nat} (hxy : x ≠ y)
    (h : MovesNodes g g₁ b [x, y]) :
    SplitsInto g (((g₁.moveSuccessors b y).addSuccessor b x).addSuccessor x y) b [x, y] := by
  have hx := (h.mem_fresh x).1 List.mem_cons_self
  have hy := (h.mem_fresh y).1 (List.mem_cons_of_mem x List.mem_cons_self)
  have hxb : x ≠ b := by omega
  have hyb : y ≠ b := by omega
  have hedges₁ := hedges.congr h.count_le h.successors h.predecessors
  have hnone : ∀ {z}, g.count ≤ z → g₁.successors z = [] := by
    intro z hz
    rw [h.successors]
    exact hedges.successors_fresh hz
  have hmove := successors_moveSuccessors g₁ b y
  have hmoved := sameNodes_moveSuccessors g₁ b y
  have hadded := sameNodes_addSuccessor (g₁.moveSuccessors b y) b x
  have hb₁ : b < g₁.count := hb.trans_le h.count_le
  -- the successors after the first of the two additions
  have hfirst : ∀ c, ((g₁.moveSuccessors b y).addSuccessor b x).successors c =
      if c = b then [x] else if c = y then g.successors b else g₁.successors c := by
    intro c
    rw [successors_addSuccessor, hmove b, if_pos rfl, hnone hy.1, hmove c]
    by_cases hcb : c = b
    · simp [hcb]
    · simp [hcb, h.successors]
  refine h.splitsInto (hmoved.trans (hadded.trans (sameNodes_addSuccessor _ x y))) (by simp [hxy])
    ?_ ?_ ?_ ?_
  · intro l p q m hl
    rcases l with - | ⟨z, l⟩
    · simp only [List.nil_append, List.cons.injEq] at hl
      rcases hl with ⟨rfl, rfl, -⟩
      rw [successors_addSuccessor, if_neg fun hc => hxb hc.1.symm, hfirst, if_pos rfl]
    · rcases l with - | ⟨z', l⟩
      · simp only [List.cons_append, List.nil_append, List.cons.injEq] at hl
        rcases hl with ⟨rfl, rfl, rfl, -⟩
        rw [successors_addSuccessor, hfirst, if_neg hxb, if_neg hxy, hnone hx.1]
        simp
      · have hlength := congrArg List.length hl
        simp at hlength
        omega
  · intro l p hl
    have hp : some p = some y := by
      rw [← List.getLast?_concat (l := l) (a := p), ← hl]
      rfl
    obtain rfl := Option.some.inj hp
    rw [successors_addSuccessor, if_neg fun hc => hxy hc.1.symm, hfirst, if_neg hyb, if_pos rfl]
  · intro c hc
    simp only [List.mem_cons, List.not_mem_nil, or_false, not_or] at hc
    rw [successors_addSuccessor, if_neg fun h => hc.2.1 h.1, hfirst, if_neg hc.1, if_neg hc.2.2,
      h.successors]
  · have hmoved₁ := hedges₁.moveSuccessors hb₁ hy.2 hyb (hnone hy.1)
    have hcount : ((g₁.moveSuccessors b y).addSuccessor b x).count = g₁.count :=
      hadded.count.trans hmoved.count
    apply EdgesConsistent.addSuccessor
    · exact hmoved₁.addSuccessor (hmoved.count.symm ▸ hb₁) (hmoved.count.symm ▸ hx.2)
    · rw [hcount]
      exact hx.2
    · rw [hcount]
      exact hy.2

end Link

section Around

variable [DecidableEq N] {g : Blocks N} {b : Nat} {node : N} {before rest : List N}

theorem appendAll_spec (g : Blocks N) (b : Nat) (ns : List N) :
    (g.appendAll b ns).count = g.count ∧ (g.appendAll b ns).successors = g.successors ∧
    (g.appendAll b ns).predecessors = g.predecessors ∧
    (g.appendAll b ns).getNodes = Function.update g.getNodes b (g.getNodes b ++ ns) ∧
    ∀ n, (g.appendAll b ns).getBBlock n = if n ∈ ns then some b else g.getBBlock n := by
  rw [appendAll]
  induction ns generalizing g with
  | nil => exact ⟨rfl, rfl, rfl, by simp, fun n => rfl⟩
  | cons n ns ih =>
      rcases ih (g.append b n) with ⟨hcount, hsucc, hpred, hnodes, hblock⟩
      refine ⟨hcount, hsucc, hpred, ?_, fun m => ?_⟩
      · rw [List.foldl_cons, hnodes]
        simp [append]
      · rw [List.foldl_cons, hblock, getBBlock_append]
        by_cases hm : m = n
        · simp [hm]
        · simp [hm]

theorem getNodes_after (hplaced : g.NodesPlaced) (hb : b < g.count)
    (hnodes : g.getNodes b = node :: rest) (c : Nat) :
    ((g.newBlock.appendAll g.count rest).resize b 1).getNodes c =
      if c = b then [node] else if c = g.count then rest else g.getNodes c := by
  rcases appendAll_spec g.newBlock g.count rest with ⟨-, -, -, hmoved, -⟩
  have hne : g.count ≠ b := by omega
  have hfresh : g.getNodes g.count = [] := hplaced.getNodes_fresh (le_refl _)
  rw [resize, hmoved]
  by_cases hcb : c = b
  · simp [hcb, hne.symm, newBlock, hnodes]
  · by_cases hca : c = g.count
    · simp [hca, hne, newBlock, hfresh]
    · simp [hcb, hca, newBlock]

/-- The nodes behind the first one move to a new block. -/
theorem movesNodes_after (hplaced : g.NodesPlaced) (hb : b < g.count)
    (hnodes : g.getNodes b = node :: rest) :
    MovesNodes g ((g.newBlock.appendAll g.count rest).resize b 1) b [g.count] := by
  rcases appendAll_spec g.newBlock g.count rest with ⟨hcount, hsucc, hpred, -, hblock⟩
  have hne : g.count ≠ b := by omega
  have hgetNodes := getNodes_after hplaced hb hnodes
  have hfirst : node ∉ rest := (List.nodup_cons.1 (hnodes ▸ hplaced.nodup b)).1
  constructor
  case count_le => exact (Nat.le_succ g.count).trans_eq hcount.symm
  case mem_fresh =>
    intro c
    show c ∈ [g.count] ↔ g.count ≤ c ∧ c < (g.newBlock.appendAll g.count rest).count
    rw [hcount, List.mem_singleton]
    show c = g.count ↔ g.count ≤ c ∧ c < g.count + 1
    omega
  case nodes => simp [hgetNodes, hnodes, hne]
  case getNodes_other =>
    intro c hc
    simp only [List.mem_cons, List.not_mem_nil, or_false, not_or] at hc
    rw [hgetNodes, if_neg hc.1, if_neg hc.2]
  case getBBlock =>
    intro c hc n hn
    show (g.newBlock.appendAll g.count rest).getBBlock n = some c
    rw [hgetNodes] at hn
    rw [hblock]
    simp only [List.mem_cons, List.not_mem_nil, or_false] at hc
    rcases hc with rfl | rfl
    · -- the first node stays
      rw [if_pos rfl, List.mem_singleton] at hn
      rw [hn, if_neg hfirst]
      exact (hplaced.getBBlock c node).1 (by rw [hnodes]; exact List.mem_cons_self)
    · rw [if_neg hne, if_pos rfl] at hn
      rw [if_pos hn]
  case getBBlock_other =>
    intro n hn
    rw [hnodes, List.mem_cons, not_or] at hn
    exact (hblock n).trans (if_neg hn.2)
  case successors => exact hsucc
  case predecessors => exact hpred

theorem getNodes_withnode (hplaced : g.NodesPlaced) (hb : b < g.count)
    (hnodes : g.getNodes b = before ++ [node]) (c : Nat) :
    ((g.newBlock.append g.count node).resize b before.length).getNodes c =
      if c = b then before else if c = g.count then [node] else g.getNodes c := by
  have hne : g.count ≠ b := by omega
  have hfresh : g.getNodes g.count = [] := hplaced.getNodes_fresh (le_refl _)
  rw [resize, append]
  by_cases hcb : c = b
  · simp [hcb, hne.symm, newBlock, hnodes]
  · by_cases hca : c = g.count
    · simp [hca, hne, newBlock, hfresh]
    · simp [hcb, hca, newBlock]

/-- The last node moves to a new block. -/
theorem movesNodes_withnode (hplaced : g.NodesPlaced) (hb : b < g.count)
    (hnodes : g.getNodes b = before ++ [node]) :
    MovesNodes g ((g.newBlock.append g.count node).resize b before.length) b [g.count] := by
  have hne : g.count ≠ b := by omega
  have hgetNodes := getNodes_withnode hplaced hb hnodes
  have hnotin : node ∉ before := by
    have hnodup := hplaced.nodup b
    rw [hnodes, List.nodup_append] at hnodup
    exact fun hin => hnodup.2.2 node hin node List.mem_cons_self rfl
  constructor
  case count_le => exact Nat.le_succ g.count
  case mem_fresh =>
    intro c
    show c ∈ [g.count] ↔ g.count ≤ c ∧ c < g.count + 1
    rw [List.mem_singleton]
    omega
  case nodes => simp [hgetNodes, hnodes, hne]
  case getNodes_other =>
    intro c hc
    simp only [List.mem_cons, List.not_mem_nil, or_false, not_or] at hc
    rw [hgetNodes, if_neg hc.1, if_neg hc.2]
  case getBBlock =>
    intro c hc n hn
    show Function.update g.getBBlock node (some g.count) n = some c
    rw [hgetNodes] at hn
    simp only [List.mem_cons, List.not_mem_nil, or_false] at hc
    rcases hc with rfl | rfl
    · -- the nodes that stay
      rw [if_pos rfl] at hn
      have hnode : n ≠ node := fun heq => hnotin (heq ▸ hn)
      rw [Function.update_of_ne hnode]
      exact (hplaced.getBBlock c n).1 (by rw [hnodes]; exact List.mem_append_left _ hn)
    · rw [if_neg hne, if_pos rfl, List.mem_singleton] at hn
      rw [hn, Function.update_self]
  case getBBlock_other =>
    intro n hn
    rw [hnodes, List.mem_append, not_or, List.mem_singleton] at hn
    exact Function.update_of_ne hn.2 _ _
  case successors => rfl
  case predecessors => rfl

theorem getNodes_both (hplaced : g.NodesPlaced) (hb : b < g.count)
    (hnodes : g.getNodes b = before ++ node :: rest) (c : Nat) :
    (((g.newBlock.appendAll g.count rest).newBlock.append (g.count + 1) node).resize b
      before.length).getNodes c =
      if c = b then before else if c = g.count + 1 then [node] else
        if c = g.count then rest else g.getNodes c := by
  rcases appendAll_spec g.newBlock g.count rest with ⟨-, -, -, hmoved, -⟩
  have hne : g.count ≠ b := by omega
  have hne' : g.count + 1 ≠ b := by omega
  have hfresh : g.getNodes g.count = [] := hplaced.getNodes_fresh (le_refl _)
  have hfresh' : g.getNodes (g.count + 1) = [] := hplaced.getNodes_fresh (Nat.le_succ _)
  have hg : (g.newBlock.appendAll g.count rest).newBlock.getNodes =
      Function.update g.getNodes g.count rest := by
    show (g.newBlock.appendAll g.count rest).getNodes = _
    rw [hmoved]
    simp [newBlock, hfresh]
  rw [resize, append]
  dsimp only
  rw [hg]
  by_cases hcb : c = b
  · simp [hcb, hne.symm, hne'.symm, hnodes]
  · by_cases hcw : c = g.count + 1
    · simp [hcw, hne', hfresh']
    · by_cases hca : c = g.count
      · simp [hca, hne]
      · simp [hcb, hcw, hca]

/-- The node and what is behind it move to two new blocks. -/
theorem movesNodes_both (hplaced : g.NodesPlaced) (hb : b < g.count)
    (hnodes : g.getNodes b = before ++ node :: rest) :
    MovesNodes g (((g.newBlock.appendAll g.count rest).newBlock.append
      (g.newBlock.appendAll g.count rest).count node).resize b before.length) b
      [g.count + 1, g.count] := by
  rcases appendAll_spec g.newBlock g.count rest with ⟨hcount, hsucc, hpred, -, hblock⟩
  have hcount : (g.newBlock.appendAll g.count rest).count = g.count + 1 := hcount
  have hne : g.count ≠ b := by omega
  have hne' : g.count + 1 ≠ b := by omega
  have hgetNodes := getNodes_both hplaced hb hnodes
  have hnodup := hplaced.nodup b
  rw [hnodes, List.nodup_append, List.nodup_cons] at hnodup
  rw [hcount]
  constructor
  case count_le =>
    show g.count ≤ (g.newBlock.appendAll g.count rest).count + 1
    omega
  case mem_fresh =>
    intro c
    show c ∈ [g.count + 1, g.count] ↔
      g.count ≤ c ∧ c < (g.newBlock.appendAll g.count rest).count + 1
    simp only [List.mem_cons, List.not_mem_nil, or_false]
    omega
  case nodes => simp [hgetNodes, hnodes, hne, hne']
  case getNodes_other =>
    intro c hc
    simp only [List.mem_cons, List.not_mem_nil, or_false, not_or] at hc
    rw [hgetNodes, if_neg hc.1, if_neg hc.2.1, if_neg hc.2.2]
  case getBBlock =>
    intro c hc n hn
    show Function.update (g.newBlock.appendAll g.count rest).getBBlock node (some (g.count + 1)) n =
      some c
    rw [hgetNodes] at hn
    simp only [List.mem_cons, List.not_mem_nil, or_false] at hc
    rcases hc with rfl | rfl | rfl
    · -- the nodes that stay, the node, and the nodes behind it
      rw [if_pos rfl] at hn
      have hnode : n ≠ node := fun heq => hnodup.2.2 n hn node List.mem_cons_self heq
      have hrest : n ∉ rest := fun hin => hnodup.2.2 n hn n (List.mem_cons_of_mem node hin) rfl
      rw [Function.update_of_ne hnode, hblock, if_neg hrest]
      exact (hplaced.getBBlock c n).1 (by rw [hnodes]; exact List.mem_append_left _ hn)
    · rw [if_neg hne', if_pos rfl, List.mem_singleton] at hn
      rw [hn, Function.update_self]
    · rw [if_neg hne, if_neg (Nat.ne_of_lt (Nat.lt_succ_self _)), if_pos rfl] at hn
      have hnode : n ≠ node := fun heq => hnodup.2.1.1 (heq ▸ hn)
      rw [Function.update_of_ne hnode, hblock, if_pos hn]
  case getBBlock_other =>
    intro n hn
    rw [hnodes, List.mem_append, List.mem_cons, not_or, not_or] at hn
    show Function.update (g.newBlock.appendAll g.count rest).getBBlock node (some (g.count + 1)) n =
      g.getBBlock n
    rw [Function.update_of_ne hn.2.1]
    exact (hblock n).trans (if_neg hn.2.2)
  case successors => exact hsucc
  case predecessors => exact hpred

/-- **`splitAround`**: the block becomes a chain, in which the node is alone; what was before it is in
the block, and what was behind it in the second one of the blocks that are returned. -/
theorem splitAround_spec (hplaced : g.NodesPlaced) (hedges : g.EdgesConsistent) (hb : b < g.count)
    (hnodes : g.getNodes b = before ++ node :: rest) :
    SplitsInto g (g.splitAround b node).1 b
      ((g.splitAround b node).2.1.toList ++ (g.splitAround b node).2.2.toList) ∧
    ((before = [] ∧ (g.splitAround b node).2.1 = none ∧
        (g.splitAround b node).1.getNodes b = [node]) ∨
      ∃ w, (g.splitAround b node).2.1 = some w ∧ (g.splitAround b node).1.getNodes b = before ∧
        (g.splitAround b node).1.getNodes w = [node]) ∧
    ((rest = [] ∧ (g.splitAround b node).2.2 = none) ∨
      ∃ a, (g.splitAround b node).2.2 = some a ∧ (g.splitAround b node).1.getNodes a = rest) := by
  have hnodup := hplaced.nodup b
  rw [hnodes, List.nodup_append, List.nodup_cons] at hnodup
  have hnotin : node ∉ before := fun hin => hnodup.2.2 node hin node List.mem_cons_self rfl
  have hidx : (g.getNodes b).idxOf node = before.length := by
    rw [hnodes, List.idxOf_append_of_notMem hnotin, List.idxOf_cons_self, Nat.add_zero]
  have hdrop : (g.getNodes b).drop (before.length + 1) = rest := by
    rw [hnodes, List.drop_append]
    simp
  have hlength : (g.getNodes b).length = before.length + (rest.length + 1) := by
    rw [hnodes, List.length_append, List.length_cons]
  have hne : g.count ≠ b := by omega
  by_cases hbefore : before = []
  · subst hbefore
    rw [List.nil_append] at hnodes
    by_cases hrest : rest = []
    · -- the node is alone already
      subst hrest
      have hone : (g.getNodes b).length = 1 := hlength
      rw [splitAround, if_pos hone]
      exact ⟨.refl hplaced hedges, Or.inl ⟨rfl, rfl, hnodes⟩, Or.inl ⟨rfl, rfl⟩⟩
    · have hpos := List.length_pos_of_ne_nil hrest
      have hmany : ¬ (g.getNodes b).length = 1 := by
        rw [hlength, List.length_nil]
        omega
      have hsplit : g.splitAround b node =
          ((((g.newBlock.appendAll g.count rest).resize b 1).moveSuccessors b
            g.count).addSuccessor b g.count, none, some g.count) := by
        rw [splitAround, if_neg hmany, hidx]
        dsimp only
        rw [hdrop]
        simp [hrest]
      rw [hsplit]
      have hmoves := movesNodes_after hplaced hb hnodes
      have hsame := (sameNodes_moveSuccessors ((g.newBlock.appendAll g.count rest).resize b 1) b
        g.count).trans (sameNodes_addSuccessor _ b g.count)
      refine ⟨splitsInto_one hedges hb hmoves, Or.inl ⟨rfl, rfl, ?_⟩, Or.inr ⟨g.count, rfl, ?_⟩⟩
      · rw [hsame.getNodes, getNodes_after hplaced hb hnodes, if_pos rfl]
      · rw [hsame.getNodes, getNodes_after hplaced hb hnodes, if_neg hne, if_pos rfl]
  · have hpos := List.length_pos_of_ne_nil hbefore
    have hmany : ¬ (g.getNodes b).length = 1 := by omega
    by_cases hrest : rest = []
    · subst hrest
      have hsplit : g.splitAround b node =
          ((((g.newBlock.append g.count node).resize b before.length).moveSuccessors b
            g.count).addSuccessor b g.count, some g.count, none) := by
        rw [splitAround, if_neg hmany, hidx]
        dsimp only
        rw [hdrop]
        simp [hpos]
      rw [hsplit]
      have hmoves := movesNodes_withnode hplaced hb hnodes
      have hsame := (sameNodes_moveSuccessors ((g.newBlock.append g.count node).resize b
        before.length) b g.count).trans (sameNodes_addSuccessor _ b g.count)
      refine ⟨splitsInto_one hedges hb hmoves, Or.inr ⟨g.count, rfl, ?_, ?_⟩, Or.inl ⟨rfl, rfl⟩⟩
      · rw [hsame.getNodes, getNodes_withnode hplaced hb hnodes, if_pos rfl]
      · rw [hsame.getNodes, getNodes_withnode hplaced hb hnodes, if_neg hne, if_pos rfl]
    · have hcount : (g.newBlock.appendAll g.count rest).count = g.count + 1 :=
        (appendAll_spec g.newBlock g.count rest).1
      have hne' : g.count + 1 ≠ b := by omega
      have hsplit : g.splitAround b node =
          ((((((g.newBlock.appendAll g.count rest).newBlock.append (g.count + 1) node).resize b
            before.length).moveSuccessors b g.count).addSuccessor b (g.count + 1)).addSuccessor
            (g.count + 1) g.count, some (g.count + 1), some g.count) := by
        rw [splitAround, if_neg hmany, hidx]
        dsimp only
        rw [hdrop]
        simp [hpos, hrest, hcount]
      rw [hsplit]
      have hmoves := movesNodes_both hplaced hb hnodes
      rw [hcount] at hmoves
      have hsame := ((sameNodes_moveSuccessors (((g.newBlock.appendAll g.count rest).newBlock.append
        (g.count + 1) node).resize b before.length) b g.count).trans
        (sameNodes_addSuccessor _ b (g.count + 1))).trans
        (sameNodes_addSuccessor _ (g.count + 1) g.count)
      have hxy : g.count + 1 ≠ g.count := by omega
      refine ⟨splitsInto_two hedges hb hxy hmoves, Or.inr ⟨g.count + 1, rfl, ?_, ?_⟩,
        Or.inr ⟨g.count, rfl, ?_⟩⟩
      · rw [hsame.getNodes, getNodes_both hplaced hb hnodes, if_pos rfl]
      · rw [hsame.getNodes, getNodes_both hplaced hb hnodes, if_neg hne', if_pos rfl]
      · rw [hsame.getNodes, getNodes_both hplaced hb hnodes, if_neg hne, if_neg hxy.symm, if_pos rfl]

end Around

/-! ## Runs -/

/-- What the walks through the blocks spell. -/
def SpellsNodes (g : Blocks N) : Nat → Nat → List N → Prop :=
  Spells (Edge g.successors) g.getNodes

/-- Nodes that follow one another on a path through the blocks. -/
def TracesNodes (g : Blocks N) : List N → Prop :=
  Traces (· < g.count) (Edge g.successors) g.getNodes

/-- The same nodes follow one another: between the start of a block and its end there is the same in
both graphs, and the parts of paths are the same. -/
structure SamePaths (g g' : Blocks N) : Prop where
  count_le : g.count ≤ g'.count
  nodes : ∀ n, (∃ b, g'.getBBlock n = some b) ↔ ∃ b, g.getBBlock n = some b
  spells : ∃ last : Nat → Nat, (∀ c < g.count, last c < g'.count) ∧ ∀ b < g.count, ∀ c < g.count,
    ∀ word, g.SpellsNodes b c word ↔ g'.SpellsNodes b (last c) word
  traces : ∀ word, g.TracesNodes word ↔ g'.TracesNodes word

theorem SamePaths.refl (g : Blocks N) : SamePaths g g :=
  ⟨le_refl _, fun _ => Iff.rfl, ⟨id, fun _ hc => hc, fun _ _ _ _ _ => Iff.rfl⟩, fun _ => Iff.rfl⟩

theorem SamePaths.trans {g g' g'' : Blocks N} (h : SamePaths g g') (h' : SamePaths g' g'') :
    SamePaths g g'' where
  count_le := h.count_le.trans h'.count_le
  nodes n := (h'.nodes n).trans (h.nodes n)
  spells := by
    rcases h.spells with ⟨last, hlast, hspells⟩
    rcases h'.spells with ⟨last', hlast', hspells'⟩
    refine ⟨last' ∘ last, fun c hc => hlast' _ (hlast c hc), fun b hb c hc word => ?_⟩
    rw [hspells b hb c hc word]
    exact hspells' b (hb.trans_le h.count_le) (last c) (hlast c hc) word
  traces word := (h.traces word).trans (h'.traces word)

theorem SplitsInto.samePaths {g g' : Blocks N} {b : Nat} {fresh : List Nat}
    (h : SplitsInto g g' b fresh) (hplaced : g.NodesPlaced) (hedges : g.EdgesConsistent)
    (hb : b < g.count) : SamePaths g g' := by
  have hsplit := h.chainSplit hedges hb
  have hchain : ∀ {c}, c ∈ b :: fresh → c < g'.count := by
    intro c hc
    rcases List.mem_cons.1 hc with rfl | hc
    · exact hb.trans_le h.count_le
    · exact ((h.mem_fresh c).1 hc).2
  constructor
  case count_le => exact h.count_le
  case nodes =>
    intro n
    by_cases hn : n ∈ g.getNodes b
    · -- the node is in one block of the chain
      have hn' := hn
      rw [← h.nodes, List.mem_flatMap] at hn'
      rcases hn' with ⟨c, hc, hnc⟩
      exact iff_of_true ⟨c, h.getBBlock c hc n hnc⟩ ⟨b, (hplaced.getBBlock b n).1 hn⟩
    · rw [h.getBBlock_other n hn]
  case spells =>
    refine ⟨fun c => if c = b then (b :: fresh).getLast (List.cons_ne_nil _ _) else c, ?_, ?_⟩
    · intro c hc
      dsimp only
      split
      · exact hchain (List.getLast_mem _)
      · exact hc.trans_le h.count_le
    · -- every block is the chain that it became, from its first block to its last one
      intro c hc d hd word
      have hend : SplitsInto.parts b fresh d = (SplitsInto.parts b fresh d).dropLast ++
          [if d = b then (b :: fresh).getLast (List.cons_ne_nil _ _) else d] := by
        rw [SplitsInto.parts]
        split
        · exact (List.dropLast_append_getLast _).symm
        · rfl
      have hstart : SplitsInto.parts b fresh c = c :: (SplitsInto.parts b fresh c).tail := by
        rw [SplitsInto.parts]
        split
        · next heq => rw [heq]; rfl
        · rfl
      exact hsplit.spells_iff (fun a ha => h.parts_label ha) hc hd hstart hend word
  case traces =>
    intro word
    refine hsplit.traces_iff (fun a ha => h.parts_label ha) (fun p => ?_) word
    constructor
    · intro hp
      by_cases hlt : p < g.count
      · exact ⟨p, hlt, SplitsInto.mem_parts.2 (Or.inl rfl)⟩
      · exact ⟨b, hb, SplitsInto.mem_parts.2 (Or.inr ⟨rfl, (h.mem_fresh p).2 ⟨not_lt.1 hlt, hp⟩⟩)⟩
    · rintro ⟨a, ha, hp⟩
      rcases SplitsInto.mem_parts.1 hp with rfl | ⟨-, hfresh⟩
      · exact ha.trans_le h.count_le
      · exact ((h.mem_fresh p).1 hfresh).2

section Calls

variable {S : Type w} (getCallees : N → Option (List (CalledValue N S)))

/-- A call that blocks are split around is alone in the block. -/
def CallAlone (g : Blocks N) (b : Nat) : Prop :=
  ∀ n ∈ g.getNodes b, isSplit getCallees n = true → g.getNodes b = [n]

variable {getCallees}

theorem callAlone_of_singleton {g : Blocks N} {b : Nat} {n : N} (h : g.getNodes b = [n]) :
    g.CallAlone getCallees b := by
  intro m hm _
  rw [h, List.mem_singleton] at hm
  rw [h, hm]

theorem CallAlone.congr {g g' : Blocks N} {b : Nat} (h : g.CallAlone getCallees b)
    (hnodes : g'.getNodes b = g.getNodes b) : g'.CallAlone getCallees b := by
  rw [CallAlone, hnodes]
  exact h

/-- What the loop for a block brings about. -/
structure BlockSplit (getCallees : N → Option (List (CalledValue N S))) (g g' : Blocks N) (cur : Nat)
    (fresh : List Nat) : Prop where
  placed : g'.NodesPlaced
  edges : g'.EdgesConsistent
  same : SamePaths g g'
  mem_fresh : ∀ c, c ∈ fresh ↔ g.count ≤ c ∧ c < g'.count
  nodup : fresh.Nodup
  other : ∀ c < g.count, c ≠ cur → g'.getNodes c = g.getNodes c
  alone : ∀ c ∈ cur :: fresh, g'.CallAlone getCallees c

variable [DecidableEq N]

variable (getCallees) in
/-- **The loop for one block**: it ends, and leaves no call that is not alone in the block and in the
blocks that are new. The induction is on the nodes that are left. -/
theorem exists_splitBlock (fuel : Nat) : ∀ {g : Blocks N} (newblocks : List Nat) {cur : Nat},
    g.NodesPlaced → g.EdgesConsistent → cur < g.count → (g.getNodes cur).length < fuel →
    ∃ g' fresh, splitBlock getCallees fuel (g, newblocks) cur = some (g', newblocks ++ fresh) ∧
      BlockSplit getCallees g g' cur fresh := by
  induction fuel with
  | zero => exact fun _ _ _ _ _ hfuel => absurd hfuel (Nat.not_lt_zero _)
  | succ fuel ih =>
      intro g newblocks cur hplaced hedges hcur hfuel
      rw [splitBlock, splitBlockOnFirstCall]
      cases hfind : (g.getNodes cur).find? (isSplit getCallees) with
      | none =>
          refine ⟨g, [], by rw [List.append_nil], hplaced, hedges, .refl g, fun c => ?_, .nil,
            fun _ _ _ => rfl, fun c hc => ?_⟩
          · exact iff_of_false List.not_mem_nil fun h => by omega
          · obtain rfl := List.mem_singleton.1 hc
            intro n hn hsplit
            exact absurd hsplit (List.find?_eq_none.1 hfind n hn)
      | some node =>
          rcases List.find?_eq_some_iff_append.1 hfind with ⟨-, before, rest, hnodes, hbefore⟩
          rcases splitAround_spec hplaced hedges hcur hnodes with ⟨hsplits, hfirst, hsecond⟩
          dsimp only
          generalize g.splitAround cur node = r at hsplits hfirst hsecond
          rcases r with ⟨g₁, first, second⟩
          dsimp only at hsplits hfirst hsecond ⊢
          have hplaced₁ := hsplits.nodesPlaced hplaced hcur
          have hsame₁ := hsplits.samePaths hplaced hedges hcur
          -- the block and the one with the node
          have halone₁ : ∀ c ∈ cur :: first.toList, g₁.CallAlone getCallees c := by
            intro c hc
            rcases hfirst with ⟨-, hnone, hcurnodes⟩ | ⟨w, hw, hcurnodes, hwnodes⟩
            · rw [hnone] at hc
              obtain rfl := List.mem_singleton.1 hc
              exact callAlone_of_singleton hcurnodes
            · rw [hw] at hc
              rcases List.mem_cons.1 hc with rfl | hc
              · intro n hn hsplit
                rw [hcurnodes] at hn
                have hnot := hbefore n hn
                rw [hsplit] at hnot
                cases hnot
              · obtain rfl := List.mem_singleton.1 hc
                exact callAlone_of_singleton hwnodes
          rcases hsecond with ⟨-, hnone⟩ | ⟨a, ha, hanodes⟩
          · -- nothing behind the node
            subst hnone
            rw [Option.toList_none, List.append_nil] at hsplits ⊢
            refine ⟨g₁, first.toList, rfl, hplaced₁, hsplits.edges, hsame₁, hsplits.mem_fresh,
              hsplits.nodup, fun c hc hne => ?_, halone₁⟩
            apply hsplits.getNodes_other
            intro hchain
            rcases List.mem_cons.1 hchain with heq | hfresh
            · exact hne heq
            · exact absurd ((hsplits.mem_fresh c).1 hfresh).1 (not_le.2 hc)
          · subst ha
            dsimp only
            rw [Option.toList_some] at hsplits ⊢
            have hamem : a ∈ first.toList ++ [a] := List.mem_append_right _ List.mem_cons_self
            have halt := (hsplits.mem_fresh a).1 hamem
            have hlength : (g₁.getNodes a).length < fuel := by
              rw [hnodes, List.length_append, List.length_cons] at hfuel
              rw [hanodes]
              omega
            rcases ih (newblocks ++ first.toList ++ [a]) hplaced₁ hsplits.edges halt.2 hlength with
              ⟨g₂, fresh, hrun, hdone⟩
            refine ⟨g₂, first.toList ++ [a] ++ fresh, ?_, hdone.placed, hdone.edges,
              hsame₁.trans hdone.same, fun c => ?_, ?_, fun c hc hne => ?_, fun c hc => ?_⟩
            · rw [hrun]
              simp only [List.append_assoc]
            · have hle := hsame₁.count_le
              have hle' := hdone.same.count_le
              rw [List.mem_append, hsplits.mem_fresh, hdone.mem_fresh]
              omega
            · refine List.nodup_append.2 ⟨hsplits.nodup, hdone.nodup, ?_⟩
              rintro x hx y hy rfl
              have hxlt := ((hsplits.mem_fresh x).1 hx).2
              exact absurd ((hdone.mem_fresh x).1 hy).1 (not_le.2 hxlt)
            · have hca : c ≠ a := by omega
              rw [hdone.other c (hc.trans_le hsame₁.count_le) hca]
              apply hsplits.getNodes_other
              intro hchain
              rcases List.mem_cons.1 hchain with heq | hfresh
              · exact hne heq
              · exact absurd ((hsplits.mem_fresh c).1 hfresh).1 (not_le.2 hc)
            · -- the blocks of this split are not touched again
              have hkeep : ∀ d ∈ cur :: first.toList, g₂.CallAlone getCallees d := by
                intro d hd
                have hdlt : d < g₁.count := by
                  rcases List.mem_cons.1 hd with rfl | hd
                  · exact hcur.trans_le hsame₁.count_le
                  · exact ((hsplits.mem_fresh d).1 (List.mem_append_left _ hd)).2
                have hda : d ≠ a := by
                  rintro rfl
                  rcases List.mem_cons.1 hd with rfl | hd
                  · omega
                  · have hnodup := hsplits.nodup
                    rw [List.nodup_append] at hnodup
                    exact hnodup.2.2 d hd d List.mem_cons_self rfl
                exact (halone₁ d hd).congr (hdone.other d hdlt hda)
              rcases List.mem_cons.1 hc with rfl | hc
              · exact hkeep c List.mem_cons_self
              · rw [List.append_assoc] at hc
                rcases List.mem_append.1 hc with hc | hc
                · exact hkeep c (List.mem_cons_of_mem cur hc)
                · exact hdone.alone c hc

/-- What holds when the blocks in `l` are done. -/
structure BlocksSplit (getCallees : N → Option (List (CalledValue N S))) (g₀ : Blocks N)
    (l : List Nat) (s : Blocks N × List Nat) : Prop where
  placed : s.1.NodesPlaced
  edges : s.1.EdgesConsistent
  same : SamePaths g₀ s.1
  mem_new : ∀ c, c ∈ s.2 ↔ g₀.count ≤ c ∧ c < s.1.count
  nodup : s.2.Nodup
  other : ∀ c < g₀.count, c ∉ l → s.1.getNodes c = g₀.getNodes c
  alone : ∀ c, c ∈ l ∨ c ∈ s.2 → s.1.CallAlone getCallees c

omit [DecidableEq N] in
theorem BlocksSplit.start {g₀ : Blocks N} (hplaced : g₀.NodesPlaced) (hedges : g₀.EdgesConsistent) :
    BlocksSplit getCallees g₀ [] (g₀, []) := by
  refine ⟨hplaced, hedges, .refl g₀, fun c => ?_, .nil, fun _ _ _ => rfl, fun c hc => ?_⟩
  · refine iff_of_false List.not_mem_nil fun h => ?_
    exact absurd h.1 (not_le.2 h.2)
  · rcases hc with hc | hc
    · exact absurd hc List.not_mem_nil
    · exact absurd hc List.not_mem_nil

omit [DecidableEq N] in
/-- One block more. -/
theorem BlocksSplit.step {g₀ g g' : Blocks N} {l newblocks fresh : List Nat} {b : Nat}
    (h : BlocksSplit getCallees g₀ l (g, newblocks)) (hdone : BlockSplit getCallees g g' b fresh)
    (hl : ∀ c ∈ l, c < g₀.count) :
    BlocksSplit getCallees g₀ (l ++ [b]) (g', newblocks ++ fresh) := by
  have hle : g₀.count ≤ g.count := h.same.count_le
  have hle' := hdone.same.count_le
  have hnew : ∀ c, c ∈ newblocks ↔ g₀.count ≤ c ∧ c < g.count := h.mem_new
  constructor
  case placed => exact hdone.placed
  case edges => exact hdone.edges
  case same => exact h.same.trans hdone.same
  case mem_new =>
    intro c
    show c ∈ newblocks ++ fresh ↔ g₀.count ≤ c ∧ c < g'.count
    rw [List.mem_append, hnew, hdone.mem_fresh]
    omega
  case nodup =>
    refine List.nodup_append.2 ⟨h.nodup, hdone.nodup, ?_⟩
    rintro x hx y hy rfl
    exact absurd ((hdone.mem_fresh x).1 hy).1 (not_le.2 ((hnew x).1 hx).2)
  case other =>
    intro c hc hcl
    rw [List.mem_append, not_or, List.mem_singleton] at hcl
    exact (hdone.other c (hc.trans_le hle) hcl.2).trans (h.other c hc hcl.1)
  case alone =>
    intro c hc
    by_cases hcur : c ∈ b :: fresh
    · exact hdone.alone c hcur
    · -- the block was done before
      rw [List.mem_cons, not_or] at hcur
      have hold : c ∈ l ∨ c ∈ newblocks := by
        rcases hc with hc | hc
        · rcases List.mem_append.1 hc with hc | hc
          · exact Or.inl hc
          · exact absurd (List.mem_singleton.1 hc) hcur.1
        · rcases List.mem_append.1 hc with hc | hc
          · exact Or.inr hc
          · exact absurd hc hcur.2
      have hclt : c < g.count := by
        rcases hold with hc | hc
        · exact (hl c hc).trans_le hle
        · exact ((hnew c).1 hc).2
      exact (h.alone c hold).congr (hdone.other c hclt hcur.1)

variable (getCallees) in
/-- **The loop over the blocks** ends. -/
theorem exists_splitBlocks {g₀ : Blocks N} (hplaced : g₀.NodesPlaced) (hedges : g₀.EdgesConsistent)
    {bblocks : List Nat} (hnodup : bblocks.Nodup) (hlt : ∀ b ∈ bblocks, b < g₀.count) {fuel : Nat}
    (hfuel : ∀ b ∈ bblocks, (g₀.getNodes b).length < fuel) :
    ∃ s, bblocks.foldlM (splitBlock getCallees fuel) (g₀, []) = some s ∧
      BlocksSplit getCallees g₀ bblocks s := by
  apply FallibleLoop.exists_prefix
  · rintro l b l' hl ⟨g, newblocks⟩ h
    have hb : b ∈ bblocks := hl ▸ List.mem_append_right l List.mem_cons_self
    have hbl : b ∉ l := by
      rw [hl, List.nodup_append] at hnodup
      exact fun hin => hnodup.2.2 b hin b List.mem_cons_self rfl
    -- the block is as it was
    have hlength : (g.getNodes b).length < fuel := by
      rw [h.other b (hlt b hb) hbl]
      exact hfuel b hb
    rcases exists_splitBlock getCallees _ newblocks h.placed h.edges
      ((hlt b hb).trans_le h.same.count_le) hlength with ⟨g', fresh, hrun, hdone⟩
    refine ⟨(g', newblocks ++ fresh), hrun, h.step hdone fun c hc => ?_⟩
    exact hlt c (hl ▸ List.mem_append_left _ hc)
  · exact .start hplaced hedges

end Calls

end Blocks

/-! ## The subgraph -/

/-- A subgraph: each node is in one block, the lists of successors and predecessors say the same, and
the vector has each block once. -/
structure ValidSubgraph (N : Type u) extends RWSubgraph N where
  placed : blocks.NodesPlaced
  edges : blocks.EdgesConsistent
  nodup : bblocks.Nodup
  mem_bblocks : ∀ b, b ∈ bblocks ↔ b < blocks.count

namespace ValidSubgraph

variable {N : Type u}

def empty : ValidSubgraph N :=
  ⟨⟨.empty, []⟩, .empty, .empty, .nil, fun _ => iff_of_false List.not_mem_nil (Nat.not_lt_zero _)⟩

/-- `createBBlock`. -/
def createBBlock (G : ValidSubgraph N) : ValidSubgraph N where
  blocks := G.blocks.newBlock
  bblocks := G.bblocks ++ [G.blocks.count]
  placed := ⟨fun b hb => Nat.lt_succ_of_lt (G.placed.lt b hb), G.placed.nodup, G.placed.getBBlock⟩
  edges := G.edges.congr (Nat.le_succ _) rfl rfl
  nodup := by
    rw [← List.concat_eq_append]
    refine G.nodup.concat fun hin => ?_
    exact absurd ((G.mem_bblocks _).1 hin) (lt_irrefl _)
  mem_bblocks b := by
    rw [List.mem_append, G.mem_bblocks, List.mem_singleton]
    show b < G.blocks.count ∨ b = G.blocks.count ↔ b < G.blocks.count + 1
    omega

/-- A node that is in no block comes to the end of a block. -/
def append [DecidableEq N] (G : ValidSubgraph N) (b : Nat) (n : N) (hb : b < G.blocks.count)
    (hn : G.blocks.getBBlock n = none) : ValidSubgraph N where
  blocks := G.blocks.append b n
  bblocks := G.bblocks
  placed := by
    have hnew : ∀ c, n ∉ G.blocks.getNodes c := by
      intro c hc
      rw [G.placed.getBBlock, hn] at hc
      cases hc
    constructor
    case lt =>
      intro c hc
      rw [Blocks.getNodes_append] at hc
      split at hc
      · next heq => rw [heq]; exact hb
      · exact G.placed.lt c hc
    case nodup =>
      intro c
      rw [Blocks.getNodes_append]
      split
      · rw [← List.concat_eq_append]
        exact (G.placed.nodup b).concat (hnew b)
      · exact G.placed.nodup c
    case getBBlock =>
      intro c m
      rw [Blocks.getNodes_append, Blocks.getBBlock_append]
      by_cases hm : m = n
      · subst hm
        by_cases hc : c = b
        · simp [hc]
        · simp [hc, hnew c, Ne.symm hc]
      · by_cases hc : c = b
        · simp [hc, hm, G.placed.getBBlock]
        · simp [hc, hm, G.placed.getBBlock]
  edges := G.edges.congr (le_refl _) rfl rfl
  nodup := G.nodup
  mem_bblocks := G.mem_bblocks

/-- `addSuccessor` of two blocks. -/
def addSuccessor (G : ValidSubgraph N) (b s : Nat) (hb : b < G.blocks.count)
    (hs : s < G.blocks.count) : ValidSubgraph N where
  blocks := G.blocks.addSuccessor b s
  bblocks := G.bblocks
  placed := by
    rcases Blocks.sameNodes_addSuccessor G.blocks b s with ⟨hcount, hnodes, hblock⟩
    refine ⟨fun c hc => ?_, fun c => ?_, fun c n => ?_⟩
    · rw [hnodes] at hc
      rw [hcount]
      exact G.placed.lt c hc
    · rw [hnodes]
      exact G.placed.nodup c
    · rw [hnodes, hblock]
      exact G.placed.getBBlock c n
  edges := G.edges.addSuccessor hb hs
  nodup := G.nodup
  mem_bblocks c := by
    rw [Blocks.count_addSuccessor]
    exact G.mem_bblocks c

end ValidSubgraph

/-- Fuel for each of the loops. -/
def RWSubgraph.size {N : Type u} (G : RWSubgraph N) : Nat :=
  (G.bblocks.map fun b => (G.blocks.getNodes b).length).sum + 1

/-- **Splitting keeps the program.** For every subgraph `splitBBlocksOnCalls` gives a subgraph again, in
which each call, but one of a single undefined function, is alone in its block; the nodes are those from
before, and so are the sequences of nodes on the paths through the blocks. -/
theorem splitBBlocksOnCalls_preserves {N : Type u} [DecidableEq N] {S : Type w}
    (getCallees : N → Option (List (CalledValue N S))) (G : ValidSubgraph N) (extra : Nat) :
    ∃ G' : ValidSubgraph N,
      splitBBlocksOnCalls getCallees (G.size + extra) G.toRWSubgraph = some G'.toRWSubgraph ∧
      (∀ b n callees, n ∈ G'.blocks.getNodes b → getCallees n = some callees →
        callsOneUndefined callees = false → G'.blocks.getNodes b = [n]) ∧
      G'.bblocks.head? = G.bblocks.head? ∧ Blocks.SamePaths G.blocks G'.blocks := by
  have hfuel : ∀ b ∈ G.bblocks, (G.blocks.getNodes b).length < G.size + extra := by
    intro b hb
    have hle := List.single_le_sum (l := G.bblocks.map fun b => (G.blocks.getNodes b).length)
      (fun _ _ => Nat.zero_le _) _ (List.mem_map_of_mem hb)
    rw [RWSubgraph.size]
    omega
  rcases Blocks.exists_splitBlocks getCallees G.placed G.edges G.nodup
    (fun b hb => (G.mem_bblocks b).1 hb) hfuel with ⟨⟨g, newblocks⟩, hrun, h⟩
  have hmem : ∀ b, b ∈ G.bblocks ++ newblocks ↔ b < g.count := by
    intro b
    have hle : G.blocks.count ≤ g.count := h.same.count_le
    have hnew : b ∈ newblocks ↔ G.blocks.count ≤ b ∧ b < g.count := h.mem_new b
    rw [List.mem_append, G.mem_bblocks, hnew]
    omega
  have hlist : (G.bblocks ++ newblocks).Nodup := by
    refine List.nodup_append.2 ⟨G.nodup, h.nodup, ?_⟩
    rintro x hx y hy rfl
    exact absurd ((h.mem_new x).1 hy).1 (not_le.2 ((G.mem_bblocks x).1 hx))
  -- without blocks nothing is done
  have hempty : G.bblocks = [] → g = G.blocks ∧ newblocks = [] := by
    intro hnil
    rw [hnil] at hrun
    rcases Prod.mk.inj (Option.some.inj hrun) with ⟨hg, hnew⟩
    exact ⟨hg.symm, hnew.symm⟩
  refine ⟨⟨⟨g, G.bblocks ++ newblocks⟩, h.placed, h.edges, hlist, hmem⟩, ?_, ?_, ?_, h.same⟩
  · show _ = some (RWSubgraph.mk g (G.bblocks ++ newblocks))
    rw [splitBBlocksOnCalls]
    split
    · next hzero =>
        have hnil := List.length_eq_zero_iff.1 hzero
        rcases hempty hnil with ⟨hg, hnew⟩
        rw [hg, hnew, List.append_nil]
    · rw [hrun]
      rfl
  · intro b n callees hn hcallees hdefined
    have hb : b < g.count := h.placed.lt b (List.ne_nil_of_mem hn)
    have hsplit : Blocks.isSplit getCallees n = true := by
      rw [Blocks.isSplit, hcallees]
      show (!callsOneUndefined callees) = true
      rw [hdefined]
      rfl
    exact h.alone b (List.mem_append.1 ((hmem b).2 hb)) n hn hsplit
  · show (G.bblocks ++ newblocks).head? = G.bblocks.head?
    rw [List.head?_append]
    by_cases hnil : G.bblocks = []
    · rw [(hempty hnil).2, List.head?_nil, Option.or_none]
    · rw [List.head?_eq_some_head hnil]
      rfl

/-- A block with two calls and a loop back to it, next to a call of an undefined function. -/
example :
    let G : RWSubgraph Nat := ⟨((Blocks.empty.newBlock.appendAll 0 [1, 2, 3, 4]).addSuccessor 0 0), [0]⟩
    let getCallees : Nat → Option (List (CalledValue Nat Nat)) := fun n =>
      if n = 1 then some [.calledValue 9] else if n = 2 ∨ n = 4 then some [.subgraph 0] else none
    (splitBBlocksOnCalls getCallees G.size G).map
        (fun G' => G'.bblocks.map fun b => (G'.blocks.getNodes b, G'.blocks.successors b)) =
      some [([1], [2]), ([2], [1]), ([3], [3]), ([4], [0])] := by
  decide

end Cape.MemorySSA
