import Cape.Library.Drain
import Cape.Library.FallibleLoop
import Cape.Library.FinLiterals
import Cape.MemorySSA.BlockSplitting
import Cape.PointerAnalysis.SubgraphNode

/-!
# Blocks are built from nodes

`BBlocksBuilder` takes the nodes from a queue, from a root on. A node with one predecessor, of which it
is the only successor, comes to the end of the block of that predecessor. Any other node starts a block.

The blocks partition the nodes that the root reaches, with edges into their first and out of their last
nodes only, exactly when the root itself starts a block and, where assertions are checked, no node is in
a block before (`buildBlocks_right_iff`). The step is that a node from the queue finds its predecessor
last in a block (`Holds.last_of_inside`). The one place where the builder is used takes the root from a
block, so that an assertion fails (`RWSubgraph.buildBBlocks_eq_none`).
-/

set_option autoImplicit false

namespace Cape.MemorySSA

open Cape.Library Cape.PointerAnalysis Relation

/-- Nodes with edges that agree at both ends, and with IDs. The ID 0 is for invalid nodes. -/
structure NodeGraph (N : Type) [DecidableEq N] extends SubgraphNodes N where
  getID : N → Nat
  converse : toSubgraphNodes.Converse
  getID_injective : Function.Injective getID
  getID_ne_zero : ∀ n, getID n ≠ 0

/-- Blocks that are not there yet have no nodes, and no node refers to one. -/
structure Blocks.Allocated {N : Type} (g : Blocks N) : Prop where
  getNodes : ∀ b, g.count ≤ b → g.getNodes b = []
  getBBlock : ∀ n b, g.getBBlock n = some b → b < g.count

/-- The blocks before the builder starts. -/
structure AllocatedBlocks (N : Type) extends Blocks N where
  allocated : toBlocks.Allocated

/-- `BBlocksBuilder`: the blocks that it has made, in the order of the vector, and `memory` with these
and all other blocks. -/
structure BBlocksBuilder (N : Type) where
  memory : Blocks N
  blocks : List Nat
  processed : Finset Nat
  queue : List N

namespace BBlocksBuilder

variable {N : Type} [DecidableEq N]

omit [DecidableEq N] in
def empty (B : Blocks N) : BBlocksBuilder N := ⟨B, [], ∅, []⟩

def setNewBlock (s : BBlocksBuilder N) (cur : N) : BBlocksBuilder N :=
  { s with
    memory := s.memory.newBlock.append s.memory.count cur
    blocks := s.blocks ++ [s.memory.count] }

def addToBlock (s : BBlocksBuilder N) (cur : N) (blk : Nat) : BBlocksBuilder N :=
  { s with memory := s.memory.append blk cur }

omit [DecidableEq N] in
/-- `_queue.pop`, of a queue that is not empty. -/
def pop (s : BBlocksBuilder N) : Option (N × BBlocksBuilder N) :=
  match s.queue with
  | [] => none
  | cur :: rest => some (cur, { s with queue := rest })

variable (debug : Bool) (G : NodeGraph N)

/-- `enqueue`; the call of itself in an assertion finds the ID. `debug` says whether assertions are
checked, and `none` that one fails. -/
def enqueue (s : BBlocksBuilder N) (n : N) : Option (BBlocksBuilder N) :=
  if debug ∧ G.getID n = 0 then none
  else if G.getID n ∈ s.processed then some s
  else some { s with processed := insert (G.getID n) s.processed, queue := s.queue ++ [n] }

/-- `setBlock`. A block that the predecessor does not have cannot be appended to, also where assertions
are not checked. -/
def setBlock (s : BBlocksBuilder N) (cur : N) : Option (BBlocksBuilder N) :=
  match G.predecessors cur with
  | [pred] =>
      -- the entry node after branching
      if 1 < (G.successors pred).length then some (s.setNewBlock cur)
      else do
        -- inside the block of the predecessor
        let blk ← s.memory.getBBlock pred
        some (s.addToBlock cur blk)
  -- no predecessor, or a join
  | _ => some (s.setNewBlock cur)

/-- The body of the loop. -/
def turn (s : BBlocksBuilder N) (cur : N) : Option (BBlocksBuilder N) :=
  if debug ∧ s.memory.getBBlock cur ≠ none then none
  else do
    let s ← s.setBlock G cur
    (G.successors cur).foldlM (enqueue debug G) s

def buildBlocks (fuel : Nat) (s : BBlocksBuilder N) (root : N) : Option (BBlocksBuilder N) := do
  let s ← s.enqueue debug G root
  Drain.run pop (turn debug G) fuel s

end BBlocksBuilder

/-- `getRoot`; `none` for a null pointer, and where there is no block. -/
def RWSubgraph.getRoot {N : Type} (S : RWSubgraph N) : Option N := do
  let b ← S.bblocks.head?
  (S.blocks.getNodes b).head?

/-- `RWSubgraph::buildBBlocks`. The blocks from before are in the vector no more. -/
def RWSubgraph.buildBBlocks {N : Type} [DecidableEq N] (debug : Bool) (G : NodeGraph N) (fuel : Nat)
    (S : RWSubgraph N) : Option (RWSubgraph N) := do
  let root ← S.getRoot
  let s ← (BBlocksBuilder.empty S.blocks).buildBlocks debug G fuel root
  let S : RWSubgraph N := ⟨s.memory, s.blocks⟩
  -- the root is that of the new blocks here
  if debug ∧ S.getRoot.bind S.blocks.getBBlock = none then none else some S

namespace NodeGraph

variable {N : Type} [DecidableEq N] (G : NodeGraph N)

/-- `n` is the only successor of `m`, and `m` its only predecessor. -/
def Inside (m n : N) : Prop := G.successors m = [n] ∧ G.predecessors n = [m]

def Reaches (root n : N) : Prop := ReflTransGen G.Edge root n

end NodeGraph

/-- The blocks of the builder partition what the root reaches, and are entered at the first node and left
at the last one only. -/
structure Partitioned {N : Type} [DecidableEq N] (G : NodeGraph N) (root : N) (s : BBlocksBuilder N) :
    Prop where
  exactly_one : ∀ n, G.Reaches root n → ∃! b, b ∈ s.blocks ∧ n ∈ s.memory.getNodes b
  nodup : s.blocks.Nodup ∧ ∀ b ∈ s.blocks, (s.memory.getNodes b).Nodup
  getBBlock : ∀ n, G.Reaches root n →
    ∀ b ∈ s.blocks, n ∈ s.memory.getNodes b → s.memory.getBBlock n = some b
  inside : ∀ b ∈ s.blocks, ∀ l m n r, s.memory.getNodes b = l ++ m :: n :: r →
    G.successors m = [n] ∧ G.predecessors n = [m]
  enters : ∀ b ∈ s.blocks, ∀ m n, G.Edge m n → n ∈ s.memory.getNodes b →
    (s.memory.getNodes b).head? = some n ∨ ∃ l r, s.memory.getNodes b = l ++ m :: n :: r
  leaves : ∀ b ∈ s.blocks, ∀ m n, G.Edge m n → m ∈ s.memory.getNodes b →
    (s.memory.getNodes b).getLast? = some m ∨ ∃ l r, s.memory.getNodes b = l ++ m :: n :: r

namespace BBlocksBuilder

variable {N : Type} [DecidableEq N]

section

variable [Fintype N] (debug : Bool) (G : NodeGraph N) (B : AllocatedBlocks N) (root : N)

/-- A builder that starts at the root returns, with a partition. -/
def Right : Prop :=
  ∀ extra, ∃ s, (empty B.toBlocks).buildBlocks debug G (Fintype.card N + 1 + extra) root = some s ∧
    Partitioned G root s

omit [Fintype N] in
/-- No node is in a block before, where assertions are checked, and the root does not continue a
block. -/
structure Fits : Prop where
  free : debug → ∀ n, G.Reaches root n → B.getBBlock n = none
  starts : ∀ p, ¬ G.Inside p root

end

/-! ## The first turn -/

/-- The builder with the root in the queue. -/
def atRoot (G : NodeGraph N) (B : Blocks N) (root : N) : BBlocksBuilder N :=
  ⟨B, [], {G.getID root}, [root]⟩

theorem buildBlocks_eq (debug : Bool) (G : NodeGraph N) (B : Blocks N) (fuel : Nat) (root : N) :
    (empty B).buildBlocks debug G fuel root =
      Drain.run pop (turn debug G) fuel (atRoot G B root) := by
  have hid : ¬ (debug = true ∧ G.getID root = 0) := fun h => G.getID_ne_zero root h.2
  rw [buildBlocks, enqueue, if_neg hid]
  rfl

theorem run_atRoot (debug : Bool) (G : NodeGraph N) (B : Blocks N) (fuel : Nat) (root : N) :
    Drain.run pop (turn debug G) (fuel + 1) (atRoot G B root) =
      (turn debug G { atRoot G B root with queue := [] } root).bind
        (Drain.run pop (turn debug G) fuel) := rfl

/-! ## One turn -/

section Turn

variable {debug : Bool} {G : NodeGraph N} {s s' : BBlocksBuilder N} {cur pred : N}

theorem setBlock_of_inside (h : G.Inside pred cur) :
    s.setBlock G cur = (s.memory.getBBlock pred).map fun blk => s.addToBlock cur blk := by
  have hone : ¬ 1 < (G.successors pred).length := by
    rw [h.1]
    exact lt_irrefl 1
  rw [setBlock, h.2]
  simp only [if_neg hone]
  cases s.memory.getBBlock pred <;> rfl

/-- The tests of `setBlock` find the nodes that start a block. -/
theorem setBlock_of_starts (h : ∀ p, ¬ G.Inside p cur) :
    s.setBlock G cur = some (s.setNewBlock cur) := by
  rw [setBlock]
  split
  · next p hp =>
      have hmem : cur ∈ G.successors p := by
        apply G.converse.mem_iff.2
        rw [hp]
        exact List.mem_singleton_self p
      -- the node is not the only successor
      have hmore : 1 < (G.successors p).length := by
        by_contra hle
        obtain ⟨n, hn⟩ : ∃ n, G.successors p = [n] := by
          apply List.length_eq_one_iff.1
          have := List.length_pos_of_mem hmem
          omega
        obtain rfl : cur = n := List.mem_singleton.1 (hn ▸ hmem)
        exact h p ⟨hn, hp⟩
      rw [if_pos hmore]
  · rfl

theorem processed_setBlock (h : s.setBlock G cur = some s') :
    s'.processed = s.processed ∧ s'.queue = s.queue := by
  rw [setBlock] at h
  split at h
  · split at h
    · obtain rfl := Option.some.inj h
      exact ⟨rfl, rfl⟩
    · obtain ⟨blk, -, h⟩ := Option.bind_eq_some_iff.1 h
      obtain rfl := Option.some.inj h
      exact ⟨rfl, rfl⟩
  · obtain rfl := Option.some.inj h
    exact ⟨rfl, rfl⟩

/-- `setBlock` changes the block of this node only; a block that is new has a new number. -/
theorem setBlock_frame (h : s.setBlock G cur = some s') :
    (∀ n, n ≠ cur → s'.memory.getBBlock n = s.memory.getBBlock n) ∧
    s.memory.count ≤ s'.memory.count ∧ ∀ b ∈ s'.blocks, b ∈ s.blocks ∨ s.memory.count ≤ b := by
  have hother : ∀ (g : Blocks N) (b : Nat) (n : N), n ≠ cur →
      (g.append b cur).getBBlock n = g.getBBlock n := fun g b n hn => Function.update_of_ne hn _ _
  by_cases hstarts : ∀ p, ¬ G.Inside p cur
  · rw [setBlock_of_starts hstarts] at h
    obtain rfl := Option.some.inj h
    refine ⟨hother _ _, Nat.le_succ _, fun b hb => ?_⟩
    apply (List.mem_append.1 hb).imp_right
    intro hb
    rw [List.mem_singleton.1 hb]
  · push Not at hstarts
    obtain ⟨p, hp⟩ := hstarts
    rw [setBlock_of_inside hp] at h
    obtain ⟨blk, -, rfl⟩ := Option.map_eq_some_iff.1 h
    exact ⟨hother _ _, le_refl _, fun b hb => Or.inl hb⟩

variable [Fintype N] (G)

/-- The search that the builder makes, by nodes for IDs. -/
def worklist (s : BBlocksBuilder N) : Worklist N :=
  ⟨Finset.univ.filter fun n => G.getID n ∈ s.processed, s.queue⟩

variable {G}

/-- `enqueue` sees the node and changes no block. -/
theorem enqueue_spec (debug : Bool) (G : NodeGraph N) (s : BBlocksBuilder N) (n : N) :
    ∃ s', s.enqueue debug G n = some s' ∧ s'.memory = s.memory ∧ s'.blocks = s.blocks ∧
      s'.worklist G = (s.worklist G).see .queue n := by
  have hid : ¬ (debug = true ∧ G.getID n = 0) := fun h => G.getID_ne_zero n h.2
  have hseen : n ∈ (s.worklist G).seen ↔ G.getID n ∈ s.processed := by simp [worklist]
  rw [enqueue, if_neg hid, Worklist.see]
  by_cases hn : G.getID n ∈ s.processed
  · rw [if_pos hn, if_pos (hseen.2 hn)]
    exact ⟨s, rfl, rfl, rfl, rfl⟩
  · rw [if_neg hn, if_neg (mt hseen.1 hn)]
    refine ⟨_, rfl, rfl, rfl, ?_⟩
    -- the ID is of no other node
    have hinsert : (Finset.univ.filter fun m => G.getID m ∈ insert (G.getID n) s.processed) =
        insert n (Finset.univ.filter fun m => G.getID m ∈ s.processed) := by
      ext m
      simp [G.getID_injective.eq_iff]
    rw [worklist, hinsert]
    rfl

theorem enqueueAll_spec (debug : Bool) (G : NodeGraph N) (l : List N) : ∀ s : BBlocksBuilder N,
    ∃ s', l.foldlM (enqueue debug G) s = some s' ∧ s'.memory = s.memory ∧ s'.blocks = s.blocks ∧
      s'.worklist G = l.foldl (Worklist.see .queue) (s.worklist G) := by
  induction l with
  | nil => exact fun s => ⟨s, rfl, rfl, rfl, rfl⟩
  | cons n l ih =>
      intro s
      obtain ⟨s₁, hs₁, hmemory₁, hblocks₁, hwork₁⟩ := s.enqueue_spec debug G n
      obtain ⟨s', hs', hmemory, hblocks, hwork⟩ := ih s₁
      refine ⟨s', ?_, hmemory.trans hmemory₁, hblocks.trans hblocks₁, ?_⟩
      · rw [List.foldlM_cons, hs₁]
        exact hs'
      · rw [hwork, hwork₁, List.foldl_cons]

omit [DecidableEq N] [Fintype N] in
theorem pop_eq_some_iff {s₁ : BBlocksBuilder N} :
    s.pop = some (cur, s₁) ↔ s.queue = cur :: s₁.queue ∧ s₁ = { s with queue := s₁.queue } := by
  obtain ⟨memory, blocks, processed, queue⟩ := s
  obtain ⟨memory₁, blocks₁, processed₁, queue₁⟩ := s₁
  rw [pop]
  cases queue with
  | nil => simp
  | cons n rest =>
      simp only [Option.some.injEq, Prod.mk.injEq, BBlocksBuilder.mk.injEq, List.cons.injEq]
      tauto

/-- **What a turn does**: it makes one round of the search, and sets the block of the node. -/
theorem turn_spec {s₁ : BBlocksBuilder N} (hpop : s.pop = some (cur, s₁))
    (h : s₁.turn debug G cur = some s') :
    (debug → s₁.memory.getBBlock cur = none) ∧
    s'.worklist G = (s.worklist G).round .queue G.successors ∧
    ∃ s₂, s₁.setBlock G cur = some s₂ ∧ s'.memory = s₂.memory ∧ s'.blocks = s₂.blocks := by
  rw [turn] at h
  split at h
  · cases h
  · next hassert =>
      obtain ⟨s₂, hs₂, h⟩ := Option.bind_eq_some_iff.1 h
      obtain ⟨s₃, hs₃, hmemory, hblocks, hwork⟩ := enqueueAll_spec debug G (G.successors cur) s₂
      obtain rfl := Option.some.inj (hs₃.symm.trans h)
      refine ⟨fun hdebug => ?_, ?_, s₂, hs₂, hmemory, hblocks⟩
      · by_contra hne
        exact hassert ⟨hdebug, hne⟩
      · -- the search is where it was when the node had been taken from the queue
        obtain ⟨hqueue, hs₁⟩ := pop_eq_some_iff.1 hpop
        obtain ⟨hprocessed, hqueue₂⟩ := processed_setBlock hs₂
        have hseen : (s₂.worklist G) = ⟨(s.worklist G).seen, s₁.queue⟩ := by
          rw [worklist, hprocessed, hqueue₂, hs₁]
          rfl
        have hpending : (s.worklist G).pending = cur :: s₁.queue := hqueue
        rw [hwork, hseen, Worklist.round, hpending]

/-- A turn fails where an assertion does, or the predecessor has no block. -/
theorem exists_turn (hfree : debug → s.memory.getBBlock cur = none)
    (hpred : ∀ p, G.Inside p cur → s.memory.getBBlock p ≠ none) :
    ∃ s', s.turn debug G cur = some s' := by
  have hset : ∃ s₁, s.setBlock G cur = some s₁ := by
    by_cases hstarts : ∀ p, ¬ G.Inside p cur
    · exact ⟨_, setBlock_of_starts hstarts⟩
    · push Not at hstarts
      obtain ⟨p, hp⟩ := hstarts
      obtain ⟨blk, hblk⟩ := Option.ne_none_iff_exists'.1 (hpred p hp)
      refine ⟨s.addToBlock cur blk, ?_⟩
      rw [setBlock_of_inside hp, hblk]
      rfl
  obtain ⟨s₁, hs₁⟩ := hset
  obtain ⟨s', hs', -⟩ := enqueueAll_spec debug G (G.successors cur) s₁
  refine ⟨s', ?_⟩
  have hassert : ¬ (debug = true ∧ s.memory.getBBlock cur ≠ none) := fun h => h.2 (hfree h.1)
  rw [turn, if_neg hassert, hs₁]
  exact hs'

end Turn

/-! ## The blocks -/

/-- The blocks of the builder hold the nodes that are done, each once, as chains; for the other nodes
nothing has changed. -/
structure Holds (G : NodeGraph N) (B : Blocks N) (done : N → Prop) (memory : Blocks N)
    (blocks : List Nat) : Prop where
  allocated : memory.Allocated
  count_le : B.count ≤ memory.count
  mem_blocks : ∀ b, b ∈ blocks ↔ B.count ≤ b ∧ b < memory.count
  blocks_nodup : blocks.Nodup
  untouched : ∀ n, ¬ done n → memory.getBBlock n = B.getBBlock n
  placed : ∀ n, done n → ∃ b ∈ blocks, memory.getBBlock n = some b
  mem_getNodes : ∀ b ∈ blocks, ∀ n, n ∈ memory.getNodes b ↔ done n ∧ memory.getBBlock n = some b
  nodup : ∀ b ∈ blocks, (memory.getNodes b).Nodup
  chain : ∀ b ∈ blocks, (memory.getNodes b).IsChain G.Inside

namespace Holds

variable {G : NodeGraph N} {B memory : Blocks N} {done : N → Prop} {blocks : List Nat} {cur : N}

theorem start (B : AllocatedBlocks N) : Holds G B.toBlocks (fun _ => False) B.toBlocks [] where
  allocated := B.allocated
  count_le := le_refl _
  mem_blocks b := iff_of_false List.not_mem_nil fun h => by omega
  blocks_nodup := .nil
  untouched _ _ := rfl
  placed _ h := h.elim
  mem_getNodes _ hb := absurd hb List.not_mem_nil
  nodup _ hb := absurd hb List.not_mem_nil
  chain _ hb := absurd hb List.not_mem_nil

/-- A block that is new has no nodes yet. -/
theorem newBlock (h : Holds G B done memory blocks) :
    Holds G B done memory.newBlock (blocks ++ [memory.count]) := by
  have hempty : memory.getNodes memory.count = [] := h.allocated.getNodes _ (le_refl _)
  have hmem : ∀ b ∈ blocks ++ [memory.count], b ∈ blocks ∨ b = memory.count := by
    intro b hb
    rw [List.mem_append, List.mem_singleton] at hb
    exact hb
  constructor
  case allocated =>
    refine ⟨fun b hb => h.allocated.getNodes b ((Nat.le_succ _).trans hb), fun n b hb => ?_⟩
    exact (h.allocated.getBBlock n b hb).trans (Nat.lt_succ_self _)
  case count_le => exact h.count_le.trans (Nat.le_succ _)
  case mem_blocks =>
    intro b
    have hle := h.count_le
    rw [List.mem_append, List.mem_singleton, h.mem_blocks]
    show _ ↔ B.count ≤ b ∧ b < memory.count + 1
    omega
  case blocks_nodup =>
    rw [← List.concat_eq_append]
    refine h.blocks_nodup.concat fun hin => ?_
    exact absurd ((h.mem_blocks _).1 hin).2 (lt_irrefl _)
  case untouched => exact h.untouched
  case placed =>
    intro n hn
    obtain ⟨b, hb, hget⟩ := h.placed n hn
    exact ⟨b, List.mem_append_left _ hb, hget⟩
  case mem_getNodes =>
    intro b hb n
    obtain hb | rfl := hmem b hb
    · exact h.mem_getNodes b hb n
    · -- no node refers to it
      show n ∈ memory.getNodes memory.count ↔ _
      rw [hempty]
      refine iff_of_false List.not_mem_nil fun hn => ?_
      exact absurd (h.allocated.getBBlock n _ hn.2) (lt_irrefl _)
  case nodup =>
    intro b hb
    obtain hb | rfl := hmem b hb
    · exact h.nodup b hb
    · show (memory.getNodes memory.count).Nodup
      rw [hempty]
      exact .nil
  case chain =>
    intro b hb
    obtain hb | rfl := hmem b hb
    · exact h.chain b hb
    · show (memory.getNodes memory.count).IsChain _
      rw [hempty]
      exact .nil

/-- A node comes to the end of a block whose last node it continues. -/
theorem append (h : Holds G B done memory blocks) {b : Nat} (hb : b ∈ blocks) (hcur : ¬ done cur)
    (hlast : ∀ p, (memory.getNodes b).getLast? = some p → G.Inside p cur) :
    Holds G B (fun n => n = cur ∨ done n) (memory.append b cur) blocks := by
  -- a node that is not done is in no block of the builder
  have hnew : ∀ c ∈ blocks, cur ∉ memory.getNodes c := fun c hc hin =>
    hcur ((h.mem_getNodes c hc cur).1 hin).1
  have hnodes := memory.getNodes_append b cur
  have hget := memory.getBBlock_append b cur
  constructor
  case allocated =>
    have hlt : b < memory.count := ((h.mem_blocks b).1 hb).2
    refine ⟨fun c hc => ?_, fun n c hc => ?_⟩
    · rw [hnodes, if_neg (hlt.trans_le hc).ne']
      exact h.allocated.getNodes c hc
    · rw [hget] at hc
      split at hc
      · obtain rfl := Option.some.inj hc
        exact hlt
      · exact h.allocated.getBBlock n c hc
  case count_le => exact h.count_le
  case mem_blocks => exact h.mem_blocks
  case blocks_nodup => exact h.blocks_nodup
  case untouched =>
    intro n hn
    push Not at hn
    rw [hget, if_neg hn.1]
    exact h.untouched n hn.2
  case placed =>
    intro n hn
    rw [hget]
    split
    · exact ⟨b, hb, rfl⟩
    · next hne => exact h.placed n (hn.resolve_left hne)
  case mem_getNodes =>
    intro c hc n
    rw [hnodes, hget]
    by_cases hn : n = cur
    · subst hn
      by_cases hcb : c = b
      · simp [hcb]
      · simp [hcb, Ne.symm hcb, hnew c hc]
    · have hold := h.mem_getNodes c hc n
      by_cases hcb : c = b
      · subst hcb
        simpa [hn] using hold
      · simpa [hn, hcb] using hold
  case nodup =>
    intro c hc
    rw [hnodes]
    split
    · rw [← List.concat_eq_append]
      exact (h.nodup b hb).concat (hnew b hb)
    · exact h.nodup c hc
  case chain =>
    intro c hc
    rw [hnodes]
    split
    · refine (h.chain b hb).append (.singleton cur) fun p hp n hn => ?_
      obtain rfl : cur = n := by simpa using hn
      exact hlast p hp
    · exact h.chain c hc

/-- A node is the last in its block as long as the node that continues it is not done. -/
theorem last_of_inside (h : Holds G B done memory blocks) {p : N} {b : Nat} (hb : b ∈ blocks)
    (hp : p ∈ memory.getNodes b) (hinside : G.Inside p cur) (hcur : ¬ done cur) :
    (memory.getNodes b).getLast? = some p := by
  obtain ⟨l, r, hnodes⟩ := List.append_of_mem hp
  cases r with
  | nil => rw [hnodes, List.getLast?_concat]
  | cons n r =>
      -- the node behind it would be its only successor
      have hchain := h.chain b hb
      rw [hnodes, List.isChain_append_cons_cons] at hchain
      have hsucc : [n] = [cur] := hchain.2.1.1.symm.trans hinside.1
      obtain rfl := (List.cons.inj hsucc).1
      have hin : n ∈ memory.getNodes b := by
        rw [hnodes]
        simp
      exact absurd ((h.mem_getNodes b hb n).1 hin).1 hcur

/-- **`setBlock` keeps the chains.** -/
theorem setBlock {s s' : BBlocksBuilder N} (h : Holds G B done s.memory s.blocks)
    (hcur : ¬ done cur) (hpred : ∀ p, G.Inside p cur → done p) (hset : s.setBlock G cur = some s') :
    Holds G B (fun n => n = cur ∨ done n) s'.memory s'.blocks := by
  by_cases hstarts : ∀ p, ¬ G.Inside p cur
  · -- the block is new, and has no last node
    rw [setBlock_of_starts hstarts] at hset
    obtain rfl := Option.some.inj hset
    refine h.newBlock.append (List.mem_append_right _ (List.mem_singleton_self _)) hcur fun p hp => ?_
    have hempty : s.memory.newBlock.getNodes s.memory.count = [] :=
      h.allocated.getNodes _ (le_refl _)
    rw [hempty] at hp
    cases hp
  · push Not at hstarts
    obtain ⟨p, hp⟩ := hstarts
    rw [setBlock_of_inside hp] at hset
    obtain ⟨b, hb, rfl⟩ := Option.map_eq_some_iff.1 hset
    -- the predecessor is done, and the last one in its block
    obtain ⟨c, hc, hget⟩ := h.placed p (hpred p hp)
    obtain rfl : b = c := Option.some.inj (hb.symm.trans hget)
    have hlast := h.last_of_inside hc ((h.mem_getNodes b hc p).2 ⟨hpred p hp, hget⟩) hp hcur
    refine h.append hc hcur fun q hq => ?_
    obtain rfl : p = q := Option.some.inj (hlast.symm.trans hq)
    exact hp

end Holds

/-! ## A run -/

section Run

variable [Fintype N]

/-- What the turns keep. -/
structure Inv (debug : Bool) (G : NodeGraph N) (B : Blocks N) (root : N) (s : BBlocksBuilder N) :
    Prop where
  search : Worklist.Underway G.successors ⟨{root}, [root]⟩ (s.worklist G)
  free : debug → ∀ n, (s.worklist G).Taken n → B.getBBlock n = none
  holds : Holds G B (s.worklist G).Taken s.memory s.blocks

variable {debug : Bool} {G : NodeGraph N} {B : AllocatedBlocks N} {root : N}
  {s s₁ s' : BBlocksBuilder N} {cur : N}

/-- The node from the queue. -/
theorem not_taken_of_pop (hpop : s.pop = some (cur, s₁)) : ¬ (s.worklist G).Taken cur := by
  rintro ⟨-, hnot⟩
  apply hnot
  show cur ∈ s.queue
  rw [(pop_eq_some_iff.1 hpop).1]
  exact List.mem_cons_self

/-- The node of which the node from the queue is the only successor was taken before, if the root is not
such a node. -/
theorem taken_of_inside (hstarts : ∀ p, ¬ G.Inside p root)
    (hsearch : Worklist.Underway G.successors ⟨{root}, [root]⟩ (s.worklist G))
    (hpop : s.pop = some (cur, s₁)) {p : N} (hp : G.Inside p cur) : (s.worklist G).Taken p := by
  have hcur : cur ∈ (s.worklist G).pending := by
    show cur ∈ s.queue
    rw [(pop_eq_some_iff.1 hpop).1]
    exact List.mem_cons_self
  obtain hroot | ⟨q, hq, hedge⟩ := hsearch.found cur hcur
  · obtain rfl := List.mem_singleton.1 hroot
    exact absurd hp (hstarts p)
  · have hqp : q ∈ G.predecessors cur := G.converse.mem_iff.1 hedge
    rw [hp.2] at hqp
    rw [← List.mem_singleton.1 hqp]
    exact hq

theorem taken_of_turn (hsearch : Worklist.Underway G.successors ⟨{root}, [root]⟩ (s.worklist G))
    (hpop : s.pop = some (cur, s₁))
    (hwork : s'.worklist G = (s.worklist G).round .queue G.successors) (n : N) :
    (s'.worklist G).Taken n ↔ n = cur ∨ (s.worklist G).Taken n := by
  have hpending : (s.worklist G).pending = cur :: s₁.queue := (pop_eq_some_iff.1 hpop).1
  rw [hwork]
  exact Worklist.taken_round .queue G.successors hpending hsearch.nodup hsearch.pending_seen n

omit [DecidableEq N] [Fintype N] in
theorem memory_of_pop (hpop : s.pop = some (cur, s₁)) :
    s₁.memory = s.memory ∧ s₁.blocks = s.blocks := by
  rw [(pop_eq_some_iff.1 hpop).2]
  exact ⟨rfl, rfl⟩

/-- **A turn keeps the invariant.** -/
theorem Inv.turn (hstarts : ∀ p, ¬ G.Inside p root) (h : Inv debug G B.toBlocks root s)
    (hpop : s.pop = some (cur, s₁)) (hturn : s₁.turn debug G cur = some s') :
    Inv debug G B.toBlocks root s' := by
  obtain ⟨hfree, hwork, s₂, hset, hmemory, hblocks⟩ := turn_spec hpop hturn
  obtain ⟨hmemory₁, hblocks₁⟩ := memory_of_pop hpop
  have hcur : ¬ (s.worklist G).Taken cur := not_taken_of_pop hpop
  have htaken := taken_of_turn h.search hpop hwork
  constructor
  case search =>
    rw [hwork]
    exact h.search.round .queue
  case free =>
    intro hdebug n hn
    obtain rfl | hn := (htaken n).1 hn
    · -- the assertion is about the block from before, which nothing has changed
      rw [← h.holds.untouched n hcur, ← hmemory₁]
      exact hfree hdebug
    · exact h.free hdebug n hn
  case holds =>
    have hdone : (s'.worklist G).Taken = fun n => n = cur ∨ (s.worklist G).Taken n :=
      funext fun n => propext (htaken n)
    rw [hdone, hmemory, hblocks]
    refine Holds.setBlock (s := s₁) ?_ hcur (fun p hp => taken_of_inside hstarts h.search hpop hp) hset
    rw [hmemory₁, hblocks₁]
    exact h.holds

/-- The turns go on where no node is in a block before. -/
theorem Inv.exists_turn (hfits : Fits debug G B root) (h : Inv debug G B.toBlocks root s)
    (hpop : s.pop = some (cur, s₁)) : ∃ s', s₁.turn debug G cur = some s' := by
  have hmemory₁ := (memory_of_pop hpop).1
  have hcur : ¬ (s.worklist G).Taken cur := not_taken_of_pop hpop
  have hseen : cur ∈ (s.worklist G).seen := by
    apply h.search.pending_seen
    show cur ∈ s.queue
    rw [(pop_eq_some_iff.1 hpop).1]
    exact List.mem_cons_self
  apply BBlocksBuilder.exists_turn
  · -- the first assertion
    intro hdebug
    rw [hmemory₁, h.holds.untouched cur hcur]
    apply hfits.free hdebug
    exact h.search.reaches_of_seen G.successors hseen
  · -- the predecessor has its block
    intro p hp
    obtain ⟨b, -, hb⟩ := h.holds.placed p (taken_of_inside hfits.starts h.search hpop hp)
    rw [hmemory₁, hb]
    exact Option.some_ne_none b

theorem worklist_atRoot (G : NodeGraph N) (B : Blocks N) (root : N) :
    (atRoot G B root).worklist G = ⟨{root}, [root]⟩ := by
  have hseen : (Finset.univ.filter fun n => G.getID n ∈ ({G.getID root} : Finset Nat)) = {root} := by
    ext n
    simp [G.getID_injective.eq_iff]
  rw [worklist, atRoot, hseen]

/-- Nothing is taken at first. -/
theorem Inv.start (debug : Bool) (G : NodeGraph N) (B : AllocatedBlocks N) (root : N) :
    Inv debug G B.toBlocks root (atRoot G B.toBlocks root) := by
  have hwork := worklist_atRoot G B.toBlocks root
  have hnone : ∀ n, ¬ ((atRoot G B.toBlocks root).worklist G).Taken n := by
    intro n hn
    rw [hwork] at hn
    exact hn.2 (by simpa using hn.1)
  constructor
  case search =>
    rw [hwork]
    exact .init G.successors (List.nodup_singleton root) fun x hx => by simpa using hx
  case free => exact fun _ n hn => absurd hn (hnone n)
  case holds =>
    have hdone : ((atRoot G B.toBlocks root).worklist G).Taken = fun _ => False :=
      funext fun n => propext (iff_of_false (hnone n) id)
    rw [hdone]
    exact .start B

/-! ## The end -/

omit [DecidableEq N] [Fintype N] in
theorem head_or_after {l : List N} {n : N} (hn : n ∈ l) :
    l.head? = some n ∨ ∃ l' m r, l = l' ++ m :: n :: r := by
  obtain ⟨l', r, rfl⟩ := List.append_of_mem hn
  obtain rfl | ⟨l', m, rfl⟩ := List.eq_nil_or_concat l'
  · exact Or.inl rfl
  · exact Or.inr ⟨l', m, r, by simp⟩

omit [DecidableEq N] [Fintype N] in
theorem last_or_before {l : List N} {m : N} (hm : m ∈ l) :
    l.getLast? = some m ∨ ∃ l' n r, l = l' ++ m :: n :: r := by
  obtain ⟨l', r, rfl⟩ := List.append_of_mem hm
  cases r with
  | nil => exact Or.inl List.getLast?_concat
  | cons n r => exact Or.inr ⟨l', n, r, rfl⟩

theorem Inv.taken_iff (h : Inv debug G B.toBlocks root s) (hend : s.pop = none) (n : N) :
    (s.worklist G).Taken n ↔ G.Reaches root n := by
  apply h.search.taken_iff G.successors
  show s.queue = []
  rw [pop] at hend
  split at hend
  · next hnil => exact hnil
  · cases hend

/-- **What the turns keep is a partition when nothing is left.** -/
theorem Inv.partitioned (h : Inv debug G B.toBlocks root s) (hend : s.pop = none) :
    Partitioned G root s := by
  have hdone : ∀ n, G.Reaches root n → (s.worklist G).Taken n := fun n hn =>
    (h.taken_iff hend n).2 hn
  have hget : ∀ b ∈ s.blocks, ∀ n, n ∈ s.memory.getNodes b → s.memory.getBBlock n = some b :=
    fun b hb n hn => ((h.holds.mem_getNodes b hb n).1 hn).2
  have hinside : ∀ b ∈ s.blocks, ∀ l m n r, s.memory.getNodes b = l ++ m :: n :: r →
      G.Inside m n := by
    intro b hb l m n r hnodes
    have hchain := h.holds.chain b hb
    rw [hnodes, List.isChain_append_cons_cons] at hchain
    exact hchain.2.1
  constructor
  case exactly_one =>
    intro n hn
    obtain ⟨b, hb, hbn⟩ := h.holds.placed n (hdone n hn)
    refine ⟨b, ⟨hb, (h.holds.mem_getNodes b hb n).2 ⟨hdone n hn, hbn⟩⟩, ?_⟩
    rintro c ⟨hc, hcn⟩
    exact Option.some.inj ((hget c hc n hcn).symm.trans hbn)
  case nodup => exact ⟨h.holds.blocks_nodup, h.holds.nodup⟩
  case getBBlock => exact fun n _ b hb hn => hget b hb n hn
  case inside => exact hinside
  case enters =>
    intro b hb m n hedge hn
    apply (head_or_after hn).imp_right
    rintro ⟨l, p, r, hnodes⟩
    -- the one before is the only predecessor
    have hm : m ∈ G.predecessors n := G.converse.mem_iff.1 hedge
    rw [(hinside b hb l p n r hnodes).2] at hm
    obtain rfl := List.mem_singleton.1 hm
    exact ⟨l, r, hnodes⟩
  case leaves =>
    intro b hb m n hedge hm
    apply (last_or_before hm).imp_right
    rintro ⟨l, p, r, hnodes⟩
    have hn : n ∈ G.successors m := hedge
    rw [(hinside b hb l m p r hnodes).1] at hn
    obtain rfl := List.mem_singleton.1 hn
    exact ⟨l, r, hnodes⟩

/-- Where it fits, the builder returns. -/
theorem right_of_fits (h : Fits debug G B root) : Right debug G B root := by
  intro extra
  have hsize : ((atRoot G B.toBlocks root).worklist G).size < Fintype.card N + 1 + extra := by
    have hsee := Worklist.size_see .queue (⟨∅, []⟩ : Worklist N) root
    have hroot : Worklist.see .queue (⟨∅, []⟩ : Worklist N) root = ⟨{root}, [root]⟩ := rfl
    rw [worklist_atRoot, ← hroot, hsee]
    simp only [Worklist.size, Finset.card_empty, List.length_nil]
    omega
  -- every turn takes one node from the queue
  have hturn : ∀ t cur t₁, Inv debug G B.toBlocks root t → t.pop = some (cur, t₁) →
      ∃ t', t₁.turn debug G cur = some t' ∧ Inv debug G B.toBlocks root t' ∧
        (t'.worklist G).size < (t.worklist G).size := by
    intro t cur t₁ ht hpop
    obtain ⟨t', ht'⟩ := ht.exists_turn h hpop
    refine ⟨t', ht', ht.turn h.starts hpop ht', ?_⟩
    have hne : (t.worklist G).pending ≠ [] := by
      show t.queue ≠ []
      rw [(pop_eq_some_iff.1 hpop).1]
      exact List.cons_ne_nil _ _
    have := Worklist.size_round .queue G.successors (t.worklist G) hne
    rw [(turn_spec hpop ht').2.1]
    omega
  have hstart := Inv.start debug G B root
  obtain ⟨s, hs⟩ := Drain.exists_run hturn hstart hsize
  obtain ⟨hinv, hend⟩ := Drain.run_induction
    (fun t cur t₁ t' ht hpop ht' => Inv.turn h.starts ht hpop ht') hstart hs
  refine ⟨s, ?_, hinv.partitioned hend⟩
  rw [buildBlocks_eq]
  exact hs

/-- The root was taken, and put into a block from before. -/
structure Misplaced (G : NodeGraph N) (B : AllocatedBlocks N) (root : N) (s : BBlocksBuilder N) :
    Prop where
  search : Worklist.Underway G.successors ⟨{root}, [root]⟩ (s.worklist G)
  taken : (s.worklist G).Taken root
  getBBlock : ∃ b < B.count, s.memory.getBBlock root = some b
  count_le : B.count ≤ s.memory.count
  new : ∀ b ∈ s.blocks, B.count ≤ b

/-- A node that was taken stays in its block. -/
theorem Misplaced.turn (h : Misplaced G B root s) (hpop : s.pop = some (cur, s₁))
    (hturn : s₁.turn debug G cur = some s') : Misplaced G B root s' := by
  obtain ⟨-, hwork, s₂, hset, hmemory, hblocks⟩ := turn_spec hpop hturn
  obtain ⟨hmemory₁, hblocks₁⟩ := memory_of_pop hpop
  obtain ⟨hother, hcount, hnew⟩ := setBlock_frame hset
  rw [hmemory₁] at hother hcount hnew
  rw [hblocks₁] at hnew
  have hne : root ≠ cur := by
    rintro rfl
    exact not_taken_of_pop hpop h.taken
  constructor
  case search =>
    rw [hwork]
    exact h.search.round .queue
  case taken => exact (taken_of_turn h.search hpop hwork root).2 (Or.inr h.taken)
  case getBBlock =>
    rw [hmemory, hother root hne]
    exact h.getBBlock
  case count_le =>
    rw [hmemory]
    exact h.count_le.trans hcount
  case new =>
    intro b hb
    rw [hblocks] at hb
    obtain hb | hb := hnew b hb
    · exact h.new b hb
    · exact h.count_le.trans hb

/-- A root that continues a block stops the builder, or is put into a block from before. -/
theorem misplaced_of_inside {fuel : Nat} {p : N} (hp : G.Inside p root)
    (hrun : (empty B.toBlocks).buildBlocks debug G fuel root = some s) : Misplaced G B root s := by
  rw [buildBlocks_eq] at hrun
  cases fuel with
  | zero => cases hrun
  | succ fuel =>
      have hpop : (atRoot G B.toBlocks root).pop =
          some (root, { atRoot G B.toBlocks root with queue := [] }) := rfl
      rw [run_atRoot] at hrun
      obtain ⟨s', hturn, hrun⟩ := Option.bind_eq_some_iff.1 hrun
      refine (Drain.run_induction (fun _ _ _ _ h hpop hturn => Misplaced.turn h hpop hturn) ?_ hrun).1
      have hinv := Inv.start debug G B root
      obtain ⟨-, hwork, s₂, hset, hmemory, hblocks⟩ := turn_spec hpop hturn
      -- the predecessor is in a block, which was there before
      rw [setBlock_of_inside hp] at hset
      obtain ⟨b, hb, rfl⟩ := Option.map_eq_some_iff.1 hset
      constructor
      case search =>
        rw [hwork]
        exact hinv.search.round .queue
      case taken => exact (taken_of_turn hinv.search hpop hwork root).2 (Or.inl rfl)
      case getBBlock =>
        refine ⟨b, B.allocated.getBBlock p b hb, ?_⟩
        rw [hmemory]
        exact Function.update_self _ _ _
      case count_le =>
        rw [hmemory]
        exact le_refl _
      case new =>
        rw [hblocks]
        exact fun c hc => absurd hc List.not_mem_nil

theorem Misplaced.not_partitioned (h : Misplaced G B root s) : ¬ Partitioned G root s := by
  intro hpart
  obtain ⟨b, ⟨hb, hroot⟩, -⟩ := hpart.exactly_one root .refl
  obtain ⟨c, hc, hget⟩ := h.getBBlock
  rw [hpart.getBBlock root .refl b hb hroot] at hget
  obtain rfl := Option.some.inj hget
  exact absurd (h.new b hb) (not_le.2 hc)

theorem fits_of_right (h : Right debug G B root) : Fits debug G B root := by
  obtain ⟨s, hrun, hpart⟩ := h 0
  -- only with this the turns are known to keep the invariant
  have hstarts : ∀ p, ¬ G.Inside p root := fun p hp =>
    (misplaced_of_inside hp hrun).not_partitioned hpart
  refine ⟨fun hdebug n hn => ?_, hstarts⟩
  -- every node that is reached was taken from the queue
  rw [buildBlocks_eq] at hrun
  obtain ⟨hinv, hend⟩ := Drain.run_induction
    (fun t cur t₁ t' ht hpop ht' => Inv.turn hstarts ht hpop ht') (Inv.start debug G B root) hrun
  exact hinv.free hdebug n ((hinv.taken_iff hend n).2 hn)

end Run

/-- **Blocks partition the nodes.** For every graph, root and blocks from before, in builds that check
assertions and in those that do not, the builder returns with a partition of the nodes that the root
reaches into blocks that are entered at the first node and left at the last one, exactly when the root
does not continue a block and, where assertions are checked, no such node is in a block before. -/
theorem buildBlocks_right_iff [Fintype N] (debug : Bool) (G : NodeGraph N) (B : AllocatedBlocks N)
    (root : N) : Right debug G B root ↔ Fits debug G B root :=
  ⟨fits_of_right, right_of_fits⟩

/-- Two nodes in a loop. -/
def loop : NodeGraph (Fin 2) where
  toSubgraphNodes := (SubgraphNodes.empty.addSuccessor 0 1).addSuccessor 1 0
  getID n := n.val + 1
  converse := (SubgraphNodes.inv_empty.edges.addSuccessor 0 1).addSuccessor 1 0
  getID_injective _ _ h := Fin.ext (Nat.succ.inj h)
  getID_ne_zero _ := Nat.succ_ne_zero _

def noBlocks : AllocatedBlocks (Fin 2) := ⟨.empty, fun _ _ => rfl, nofun⟩

/-- The root of the loop continues the block of the other node, which has none. -/
theorem loop_not_right : ¬ Right true loop noBlocks 0 ∧ ¬ Right false loop noBlocks 0 := by
  have hnone : ∀ debug, (empty noBlocks.toBlocks).buildBlocks debug loop
      (Fintype.card (Fin 2) + 1 + 0) 0 = none := by
    intro debug
    cases debug <;> rfl
  constructor
  · intro h
    obtain ⟨s, hs, -⟩ := h 0
    exact Option.some_ne_none s (hs.symm.trans (hnone true))
  · intro h
    obtain ⟨s, hs, -⟩ := h 0
    exact Option.some_ne_none s (hs.symm.trans (hnone false))

end BBlocksBuilder

/-- **The builder is not used with success.** The root of a subgraph is in a block, and an assertion
fails. -/
theorem RWSubgraph.buildBBlocks_eq_none {N : Type} [DecidableEq N] (G : NodeGraph N) (fuel : Nat)
    (S : ValidSubgraph N) : S.toRWSubgraph.buildBBlocks true G fuel = none := by
  cases hroot : S.toRWSubgraph.getRoot with
  | none =>
      rw [RWSubgraph.buildBBlocks, hroot]
      rfl
  | some root =>
      obtain ⟨b, -, hfirst⟩ := Option.bind_eq_some_iff.1 hroot
      have hplaced : S.blocks.getBBlock root = some b :=
        (S.placed.getBBlock b root).1 (List.mem_of_mem_head? hfirst)
      have hrun : (BBlocksBuilder.empty S.blocks).buildBlocks true G fuel root = none := by
        rw [BBlocksBuilder.buildBlocks_eq]
        cases fuel with
        | zero => rfl
        | succ fuel =>
            rw [BBlocksBuilder.run_atRoot, BBlocksBuilder.turn, if_pos]
            · rfl
            · refine ⟨rfl, ?_⟩
              show S.blocks.getBBlock root ≠ none
              rw [hplaced]
              exact Option.some_ne_none b
      rw [RWSubgraph.buildBBlocks, hroot]
      simp only [Option.bind_eq_bind, Option.bind_some, hrun, Option.bind_none]

end Cape.MemorySSA
