import Cape.Library.FallibleLoop
import Cape.Library.TruncatedSearch
import Cape.PointerAnalysis.SubgraphNode
import Mathlib.Data.Set.Card

/-!
# Control flow edges of a function

`addCFGEdges`: the last node of a block is connected to the first nodes of the blocks that follow it.
A block without nodes that matter for pointers is not built; where it is a successor its own successors
are added in its place, and a set of the blocks found, one for each search, stops the recursion.

`addCFGEdges_edges`: the edges added are, one for each pair of blocks, those from a built block to a
built block that it reaches through blocks that are not built, and the same from the last node before
the entry block where this one is not built.
-/

set_option autoImplicit false

namespace Cape.PointerAnalysis

open Cape.Library Relation

variable {B N : Type} [DecidableEq B] [DecidableEq N]

/-- The nodes built for an instruction. -/
structure PSNodesSeq (N : Type) where
  nodes : List N
  nonempty : nodes ≠ []

namespace PSNodesSeq

def getFirst (seq : PSNodesSeq N) : N := seq.nodes.head seq.nonempty

def getLast (seq : PSNodesSeq N) : N := seq.nodes.getLast seq.nonempty

def single (n : N) : PSNodesSeq N := ⟨[n], List.cons_ne_nil _ _⟩

end PSNodesSeq

/-- The sequences built for the instructions of a block. -/
structure PSNodesBlock (N : Type) where
  nodes : List (PSNodesSeq N)
  nonempty : nodes ≠ []

namespace PSNodesBlock

def getFirstNode (blk : PSNodesBlock N) : N := (blk.nodes.head blk.nonempty).getFirst

def getLastNode (blk : PSNodesBlock N) : N := (blk.nodes.getLast blk.nonempty).getLast

def single (seq : PSNodesSeq N) : PSNodesBlock N := ⟨[seq], List.cons_ne_nil _ _⟩

end PSNodesBlock

/-- The blocks of a function and what was built for them: `llvmBlocks` in the order of the map, without
the blocks that are empty. -/
structure FuncGraph (B N : Type) where
  succ : B → List B
  entry : B
  llvmBlocks : List (B × PSNodesBlock N)
  keys : (llvmBlocks.map Prod.fst).Nodup

namespace FuncGraph

variable (F : FuncGraph B N)

def find (b : B) : Option (PSNodesBlock N) := F.llvmBlocks.lookup b

/-- The recursion has a bound on its depth. The blocks found and the graph are what it changes. -/
def blockAddSuccessors (blk : PSNodesBlock N) :
    Nat → List B × SubgraphNodes N → B → Option (List B × SubgraphNodes N)
  | 0, _, _ => none
  | depth + 1, s, block =>
      (F.succ block).foldlM
        (fun s S =>
          if S ∈ s.1 then some s
          else
            match F.find S with
            | none => blockAddSuccessors blk depth (S :: s.1, s.2) S
            | some it => some (S :: s.1, s.2.addSuccessor blk.getLastNode it.getFirstNode)) s

/-- `addCFGEdges`: the edges from the root or the last argument. For an entry block that is not built
they are those of a block with this one node. -/
def addEntryEdges (depth : Nat) (lastNode : N) (g : SubgraphNodes N) : Option (SubgraphNodes N) :=
  match F.find F.entry with
  | some it => some (g.addSuccessor lastNode it.getFirstNode)
  | none => (F.blockAddSuccessors (.single (.single lastNode)) depth ([], g) F.entry).map Prod.snd

def addCFGEdges (depth : Nat) (lastNode : N) (g : SubgraphNodes N) : Option (SubgraphNodes N) :=
  (F.addEntryEdges depth lastNode g).bind fun g =>
    F.llvmBlocks.foldlM
      (fun g it => (F.blockAddSuccessors it.2 depth ([], g) it.1).map Prod.snd) g

/-! ## The edges asked for -/

/-- A path with an edge at least, the inner blocks of which are not built. -/
inductive Skips (b : B) : B → Prop where
  | edge {s : B} : s ∈ F.succ b → Skips b s
  | skip {m s : B} : Skips b m → F.find m = none → s ∈ F.succ m → Skips b s

/-- The node that edges begin in: `none` stands for the entry node of the function. -/
def source (lastNode : N) : Option B → Option N
  | none => some lastNode
  | some b => (F.find b).map PSNodesBlock.getLastNode

/-- The ends of the edge for a pair of blocks. -/
def ends (lastNode : N) (p : Option B × B) : Option (N × N) :=
  (F.source lastNode p.1).bind fun a => (F.find p.2).map fun it => (a, it.getFirstNode)

/-- From the entry node an entry block that is built is entered; one that is not is skipped. -/
def Leads : Option B → B → Prop
  | none, s => if (F.find F.entry).isSome then s = F.entry else F.Skips F.entry s
  | some b, s => F.Skips b s

/-- The pairs of blocks for which there is an edge between two nodes. -/
def edgesBetween (lastNode n s : N) : Set (Option B × B) :=
  {p | F.ends lastNode p = some (n, s) ∧ F.Leads p.1 p.2}

/-! ## One search -/

/-- The blocks that a search goes on to. -/
def next (b : B) : List B := if (F.find b).isSome then [] else F.succ b

/-- The edge for a pair of blocks is added. -/
def link (lastNode : N) (g : SubgraphNodes N) (p : Option B × B) : SubgraphNodes N :=
  match F.ends lastNode p with
  | none => g
  | some e => g.addSuccessor e.1 e.2

variable {F} {lastNode : N}

omit [DecidableEq N] in
theorem ends_of_find {q : Option B} {a : N} (hq : F.source lastNode q = some a) (S : B) :
    F.ends lastNode (q, S) = (F.find S).map fun it => (a, it.getFirstNode) := by
  rw [ends, hq]
  rfl

section Search

variable [Fintype B]

/-- A search that is deep enough returns. The blocks found are those of a depth-first search, and the
edges are added in the order in which they are found. -/
theorem blockAddSuccessors_eq {q : Option B} {blk : PSNodesBlock N}
    (hq : F.source lastNode q = some blk.getLastNode) :
    ∀ (depth : Nat) (found : List B) (g : SubgraphNodes N) (block : B),
      (Finset.univ.filter (· ∉ found)).card < depth →
      ∃ new, dfs F.next depth (F.succ block) found = new ++ found ∧
        F.blockAddSuccessors blk depth (found, g) block =
          some (new ++ found, (new.reverse.map fun S => (q, S)).foldl (F.link lastNode) g) := by
  intro depth
  induction depth with
  | zero => exact fun _ _ _ h => absurd h (Nat.not_lt_zero _)
  | succ depth ih =>
      intro found g block
      rw [blockAddSuccessors]
      generalize F.succ block = roots
      induction roots generalizing found g with
      | nil => exact fun _ => ⟨[], rfl, rfl⟩
      | cons S roots ihroots =>
          intro hdepth
          rw [dfs_cons, List.foldlM_cons]
          by_cases hS : S ∈ found
          · rw [if_pos hS, if_pos hS]
            exact ihroots found g hdepth
          · rw [if_neg hS, if_neg hS]
            have hlt := card_unseen_cons (Finset.mem_univ S) hS
            -- what is found at `S`, and the edges for it
            have hone : ∃ new, dfs F.next depth (F.next S) (S :: found) = new ++ found ∧
                (match F.find S with
                  | none => F.blockAddSuccessors blk depth (S :: found, g) S
                  | some it => some (S :: found, g.addSuccessor blk.getLastNode it.getFirstNode)) =
                some (new ++ found,
                  (new.reverse.map fun S => (q, S)).foldl (F.link lastNode) g) := by
              cases hfind : F.find S with
              | some it =>
                  refine ⟨[S], ?_, ?_⟩
                  · simp [next, hfind]
                  · simp [link, ends_of_find hq, hfind]
              | none =>
                  obtain ⟨new, hnew, hrun⟩ := ih (S :: found) g S (by omega)
                  refine ⟨new ++ [S], ?_, ?_⟩
                  · simp only [next, hfind]
                    simpa using hnew
                  · -- a block that is not built gets no edge itself
                    have hlink : F.link lastNode g (q, S) = g := by
                      simp [link, ends_of_find hq, hfind]
                    simpa [hlink] using hrun
            obtain ⟨new, hnew, hrun⟩ := hone
            have hsub : found ⊆ new ++ found := List.subset_append_right _ _
            obtain ⟨more, hmore, hrest⟩ := ihroots (new ++ found)
              ((new.reverse.map fun S => (q, S)).foldl (F.link lastNode) g)
              (lt_of_le_of_lt (card_unseen_mono hsub) hdepth)
            refine ⟨more ++ new, ?_, ?_⟩
            · rw [hnew, hmore, List.append_assoc]
            · rw [hrun]
              simpa using hrest

omit [DecidableEq N] in
/-- The blocks that a search finds are those that the block reaches through empty ones. -/
theorem mem_search {depth : Nat} (hdepth : Fintype.card B < depth) {block s : B} :
    s ∈ dfs F.next depth (F.succ block) [] ↔ F.Skips block s := by
  have hcard : (Finset.univ.filter fun b : B => b ∉ ([] : List B)).card < depth := by
    simpa using hdepth
  rw [mem_dfs (fun a _ => Finset.mem_univ a) hcard]
  constructor
  · rintro (h | ⟨a, ha, -, hreach⟩)
    · simp at h
    · -- a step of the search is from a block that is not built
      induction hreach with
      | refl => exact .edge ha
      | @tail m s _ hstep ih =>
          have hnext := hstep.1
          rw [next] at hnext
          cases hfind : F.find m with
          | none => exact .skip ih hfind (by simpa [hfind] using hnext)
          | some it => simp [hfind] at hnext
  · intro h
    apply Or.inr
    induction h with
    | edge hs => exact ⟨_, hs, by simp, .refl⟩
    | skip _ hfind hs ih =>
        obtain ⟨a, ha, hnot, hreach⟩ := ih
        exact ⟨a, ha, hnot, hreach.tail ⟨by simpa [next, hfind] using hs, by simp⟩⟩

omit [Fintype B] in
theorem blockAddSuccessors_succ (blk : PSNodesBlock N) : ∀ (depth : Nat)
    (s : List B × SubgraphNodes N) (block : B) (r : List B × SubgraphNodes N),
      F.blockAddSuccessors blk depth s block = some r →
      F.blockAddSuccessors blk (depth + 1) s block = some r := by
  intro depth
  induction depth with
  | zero => exact fun _ _ _ h => absurd h (Option.some_ne_none _).symm
  | succ depth ih =>
      intro s block r h
      rw [blockAddSuccessors] at h ⊢
      refine FallibleLoop.foldlM_mono (fun s S r hr => ?_) _ s r h
      split at hr
      · next hS => rwa [if_pos hS]
      · next hS =>
          rw [if_neg hS]
          cases hfind : F.find S with
          | none =>
              rw [hfind] at hr
              exact ih _ _ _ hr
          | some it =>
              rw [hfind] at hr
              exact hr

omit [Fintype B] in
theorem blockAddSuccessors_of_le {blk : PSNodesBlock N} {depth depth' : Nat} (hle : depth ≤ depth')
    {s : List B × SubgraphNodes N} {block : B} {r : List B × SubgraphNodes N}
    (h : F.blockAddSuccessors blk depth s block = some r) :
    F.blockAddSuccessors blk depth' s block = some r := by
  induction hle with
  | refl => exact h
  | step _ ih => exact blockAddSuccessors_succ blk _ _ _ _ ih

/-- **One search**: an edge for each block that is reached through empty blocks. -/
theorem blockAddSuccessors_links (block : B) :
    ∃ targets : List B, targets.Nodup ∧ (∀ s, s ∈ targets ↔ F.Skips block s) ∧
      ∀ q (blk : PSNodesBlock N), F.source lastNode q = some blk.getLastNode →
        ∀ depth, Fintype.card B < depth → ∀ g : SubgraphNodes N,
          (F.blockAddSuccessors blk depth ([], g) block).map Prod.snd =
            some ((targets.map fun S => (q, S)).foldl (F.link lastNode) g) := by
  refine ⟨(dfs F.next (Fintype.card B + 1) (F.succ block) []).reverse, ?_, fun s => ?_,
    fun q blk hq depth hdepth g => ?_⟩
  · exact List.nodup_reverse.2 (nodup_dfs _ _ _ List.nodup_nil)
  · rw [List.mem_reverse]
    exact mem_search (Nat.lt_succ_self _)
  · obtain ⟨new, hnew, hrun⟩ := blockAddSuccessors_eq hq (Fintype.card B + 1) [] g block (by simp)
    rw [List.append_nil] at hnew
    rw [hnew, blockAddSuccessors_of_le hdepth hrun]
    rfl

end Search

/-! ## All edges -/

theorem count_link (p : Option B × B) (g : SubgraphNodes N) (n s : N) :
    ((F.link lastNode g p).successors n).count s =
        (g.successors n).count s + (if F.ends lastNode p = some (n, s) then 1 else 0) ∧
      ((F.link lastNode g p).predecessors s).count n =
        (g.predecessors s).count n + if F.ends lastNode p = some (n, s) then 1 else 0 := by
  rw [link]
  cases F.ends lastNode p with
  | none => simp
  | some e =>
      obtain ⟨a, b⟩ := e
      have hend : (some (a, b) = some (n, s)) = (n = a ∧ s = b) := by
        rw [Option.some_inj, Prod.mk.injEq]
        exact propext (and_congr eq_comm eq_comm)
      simp only [hend]
      exact ⟨SubgraphNodes.count_successors_addSuccessor g a b n s,
        SubgraphNodes.count_predecessors_addSuccessor g a b n s⟩

theorem count_links (pairs : List (Option B × B)) (g : SubgraphNodes N) (n s : N) :
    ((pairs.foldl (F.link lastNode) g).successors n).count s =
        (g.successors n).count s + pairs.countP (F.ends lastNode · = some (n, s)) ∧
      ((pairs.foldl (F.link lastNode) g).predecessors s).count n =
        (g.predecessors s).count n + pairs.countP (F.ends lastNode · = some (n, s)) := by
  induction pairs generalizing g with
  | nil => exact ⟨rfl, rfl⟩
  | cons p pairs ih =>
      rw [List.foldl_cons, List.countP_cons, (ih _).1, (ih _).2, (count_link p g n s).1,
        (count_link p g n s).2]
      simp only [decide_eq_true_eq]
      constructor
      · omega
      · omega

/-- Pairs that are all there once are counted by the number of edges between the nodes. -/
theorem countP_eq_ncard {pairs : List (Option B × B)} (hnodup : pairs.Nodup)
    (hleads : ∀ p ∈ pairs, F.Leads p.1 p.2)
    (hall : ∀ p e, F.ends lastNode p = some e → F.Leads p.1 p.2 → p ∈ pairs) (n s : N) :
    pairs.countP (F.ends lastNode · = some (n, s)) = (F.edgesBetween lastNode n s).ncard := by
  have hset : F.edgesBetween lastNode n s =
      ((pairs.filter (F.ends lastNode · = some (n, s))).toFinset : Set (Option B × B)) := by
    ext p
    simp only [edgesBetween, Set.mem_ofPred_eq, List.coe_toFinset, List.mem_filter, decide_eq_true_eq]
    exact ⟨fun h => ⟨hall p _ h.1 h.2, h.1⟩, fun h => ⟨h.2, hleads p h.1⟩⟩
  rw [hset, Set.ncard_coe_finset, List.toFinset_card_of_nodup (hnodup.filter _),
    List.countP_eq_length_filter]

omit [DecidableEq N] in
theorem find_iff {b : B} {blk : PSNodesBlock N} :
    F.find b = some blk ↔ (b, blk) ∈ F.llvmBlocks := by
  rw [find, List.lookup_eq_some_iff]
  constructor
  · rintro ⟨l₁, l₂, hl, -⟩
    rw [hl]
    simp
  · intro h
    obtain ⟨l₁, l₂, hl⟩ := List.append_of_mem h
    refine ⟨l₁, l₂, hl, fun p hp => bne_iff_ne.2 fun heq => ?_⟩
    -- the map has no other entry for the block
    have hkeys := F.keys
    rw [hl, List.map_append, List.map_cons, List.nodup_append'] at hkeys
    exact hkeys.2.2 (List.mem_map_of_mem hp) (heq ▸ List.mem_cons_self)

/-- The edges from the blocks, when each has its list of targets. -/
theorem foldlM_blocks {depth : Nat} {targets : B → List B} (l : List (B × PSNodesBlock N))
    (hrun : ∀ it ∈ l, ∀ g : SubgraphNodes N,
      (F.blockAddSuccessors it.2 depth ([], g) it.1).map Prod.snd =
        some (((targets it.1).map fun S => (some it.1, S)).foldl (F.link lastNode) g)) :
    ∀ g : SubgraphNodes N,
      l.foldlM (fun g it => (F.blockAddSuccessors it.2 depth ([], g) it.1).map Prod.snd) g =
        some ((l.flatMap fun it => (targets it.1).map fun S => (some it.1, S)).foldl
          (F.link lastNode) g) := by
  induction l with
  | nil => exact fun _ => rfl
  | cons it l ih =>
      intro g
      rw [List.foldlM_cons, hrun it List.mem_cons_self]
      rw [List.flatMap_cons, List.foldl_append]
      exact ih (fun it' h => hrun it' (List.mem_cons_of_mem _ h)) _

variable (F lastNode)

/-- The pairs for the edges from the entry node. -/
theorem entry_links [Fintype B] :
    ∃ pairs : List (Option B × B), pairs.Nodup ∧
      (∀ p, p ∈ pairs ↔ p.1 = none ∧ F.Leads none p.2) ∧
      ∀ depth, Fintype.card B < depth → ∀ g : SubgraphNodes N,
        F.addEntryEdges depth lastNode g =
          some (pairs.foldl (F.link lastNode) g) := by
  cases hfind : F.find F.entry with
  | some it =>
      refine ⟨[(none, F.entry)], List.nodup_singleton _, fun p => ?_, fun depth _ g => ?_⟩
      · simp [Leads, hfind, Prod.ext_iff]
      · simp [addEntryEdges, link, ends, source, hfind]
  | none =>
      obtain ⟨targets, hnodup, hmem, hrun⟩ := @blockAddSuccessors_links B N _ _ F lastNode _ F.entry
      refine ⟨targets.map fun S => (none, S), ?_, fun p => ?_, fun depth hdepth g => ?_⟩
      · exact hnodup.map fun _ _ h => (Prod.mk.inj h).2
      · simp only [Leads, hfind, List.mem_map, hmem]
        constructor
        · rintro ⟨S, hS, rfl⟩
          exact ⟨rfl, by simpa using hS⟩
        · rintro ⟨hnone, hS⟩
          exact ⟨p.2, by simpa using hS, by rw [← hnone]⟩
      · rw [addEntryEdges, hfind]
        exact hrun none (.single (.single lastNode)) rfl depth hdepth g

/-- **The edges of a function.** However deep the recursion may go from the number of blocks on, the
edges between two nodes are those there were and one for each pair of blocks that it is asked for. -/
theorem addCFGEdges_edges [Fintype B] (g : SubgraphNodes N) :
    ∃ g', (∀ depth, Fintype.card B < depth → F.addCFGEdges depth lastNode g = some g') ∧
      ∀ n s, (g'.successors n).count s =
          (g.successors n).count s + (F.edgesBetween lastNode n s).ncard ∧
        (g'.predecessors s).count n =
          (g.predecessors s).count n + (F.edgesBetween lastNode n s).ncard := by
  obtain ⟨pairs, hnodup, hmem, hentry⟩ := F.entry_links lastNode
  choose targets htargets hskips hrun using
    fun b => @blockAddSuccessors_links B N _ _ F lastNode _ b
  -- the pairs for the edges from the blocks
  let others := F.llvmBlocks.flatMap fun it => (targets it.1).map fun S => (some it.1, S)
  have hothers : ∀ p, p ∈ others ↔
      ∃ it ∈ F.llvmBlocks, p.1 = some it.1 ∧ F.Leads (some it.1) p.2 := by
    intro p
    simp only [others, List.mem_flatMap, List.mem_map, Leads, hskips]
    constructor
    · rintro ⟨it, hit, S, hS, rfl⟩
      exact ⟨it, hit, rfl, hS⟩
    · rintro ⟨it, hit, hp, hS⟩
      exact ⟨it, hit, p.2, hS, by rw [← hp]⟩
  have hall : (pairs ++ others).Nodup := by
    rw [List.nodup_append']
    refine ⟨hnodup, ?_, fun p hp hp' => ?_⟩
    · rw [List.nodup_flatMap]
      refine ⟨fun it _ => (htargets it.1).map fun _ _ h => (Prod.mk.inj h).2, ?_⟩
      refine (List.pairwise_map.1 F.keys).imp fun {it it'} hne p hp hp' => ?_
      obtain ⟨S, -, rfl⟩ := List.mem_map.1 hp
      obtain ⟨S', -, hS'⟩ := List.mem_map.1 hp'
      exact hne (Option.some.inj (Prod.mk.inj hS').1).symm
    · obtain ⟨it, -, hit, -⟩ := (hothers p).1 hp'
      exact absurd (((hmem p).1 hp).1.symm.trans hit) (by simp)
  refine ⟨(pairs ++ others).foldl (F.link lastNode) g, fun depth hdepth => ?_, fun n s => ?_⟩
  · have hblocks := foldlM_blocks F.llvmBlocks fun it hit g =>
      hrun it.1 (some it.1) it.2 (by rw [source, find_iff.2 hit]; rfl) depth hdepth g
    rw [List.foldl_append, addCFGEdges, hentry depth hdepth]
    exact hblocks _
  · rw [← countP_eq_ncard hall ?_ ?_ n s]
    · exact count_links _ g n s
    · intro p hp
      rcases List.mem_append.1 hp with hp | hp
      · obtain ⟨hnone, hleads⟩ := (hmem p).1 hp
        rwa [hnone]
      · obtain ⟨it, -, hit, hleads⟩ := (hothers p).1 hp
        rwa [hit]
    · rintro ⟨q, S⟩ e he hleads
      rw [List.mem_append, hmem, hothers]
      cases q with
      | none => exact Or.inl ⟨rfl, hleads⟩
      | some b =>
          -- an edge that begins in a block begins in a built one
          cases hfind : F.find b with
          | none => simp [ends, source, hfind] at he
          | some blk => exact Or.inr ⟨(b, blk), find_iff.1 hfind, rfl, hleads⟩

end FuncGraph

end Cape.PointerAnalysis
