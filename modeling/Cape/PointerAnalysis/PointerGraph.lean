import Cape.Library.Worklist
import Cape.PointerAnalysis.PointsToSet

/-!
# Pointer graphs

The nodes with their operands, the edges, the nodes reachable from a list of nodes in breadth-first
order (`PointerGraph::getNodes`), and the nodes that are on a loop of their procedure.
-/

set_option autoImplicit false

namespace Cape.PointerAnalysis

open Cape.Library

universe u

/-- `PSNodeType`, each type with the operands of its nodes. -/
inductive Kind (N : Type u) where
  | alloc
  | load (operand : PSNode N)
  | store (value address : PSNode N)
  | gep (source : PSNode N) (offset : Offset)
  | phi (operands : List (PSNode N))
  | cast (operand : PSNode N)
  | function
  | call
  | callFuncptr (operand : PSNode N)
  | callReturn (operands : List (PSNode N))
  | entry
  | ret (operands : List (PSNode N))
  | fork (operand : PSNode N)
  | join
  | invalidateLocals (operand : PSNode N)
  | free (operand : PSNode N)
  | invalidateObject (operand : PSNode N)
  | constant (target : PSNode N) (offset : Offset)
  | noop
  | memcpy (source destination : PSNode N) (len : Offset)
deriving DecidableEq

/-- `PointerGraph`: the nodes of the procedures, whose first one starts at `root`, and the global
nodes. -/
structure PointerGraph (N : Type u) where
  kind : N → Kind N
  successors : N → List N
  predecessors : N → List N
  /-- the roots of the procedures that a call node calls -/
  callees : N → List N
  /-- the nodes that a return node returns to -/
  returnSites : N → List N
  /-- `getPairedNode`: the call of a return node and the other way round -/
  pairedNode : N → N := fun n => n
  size : N → BitVec 64
  isHeap : N → Bool
  isGlobal : N → Bool
  zeroInitialized : N → Bool
  /-- the first nodes of the procedures -/
  subgraphs : List N
  /-- the procedure of a node: a place in `subgraphs` -/
  parent : N → Option Nat
  globals : List N
  root : N
  mem_predecessors : ∀ a b, a ∈ predecessors b ↔ b ∈ successors a
  nodup_globals : globals.Nodup

namespace PointerGraph

variable {N : Type u} (G : PointerGraph N)

/-- `getSize`; the static nodes have size 0. -/
def getSize : PSNode N → BitVec 64
  | .node n => G.size n
  | _ => 0

/-- The edges that `getNodes` follows: into the callees and back from them where there are some. -/
def edges (n : N) : List N :=
  match G.kind n with
  | .call | .callFuncptr _ => if (G.callees n).isEmpty then G.successors n else G.callees n
  | .ret _ => if (G.returnSites n).isEmpty then G.successors n else G.returnSites n
  | _ => G.successors n

/-- One edge. -/
def Edge (a b : N) : Prop := b ∈ G.edges a

def Reaches : N → N → Prop := Relation.ReflTransGen G.Edge

variable [DecidableEq N] [Fintype N]

/-- `getNodes`: breadth first from the start nodes. -/
def getNodes (start : List N) : List N :=
  Worklist.order .queue G.edges (Fintype.card N + start.length) ⟨start.toFinset, start⟩

/-- **`getNodes` finds the start nodes and what they reach.** -/
theorem mem_getNodes {start : List N} {n : N} :
    n ∈ G.getNodes start ↔ ∃ m ∈ start, G.Reaches m n := by
  have hseen : ∀ x ∈ (⟨start.toFinset, start⟩ : Worklist N).pending, x ∈ start.toFinset :=
    fun x hx => List.mem_toFinset.2 hx
  have hfuel : Worklist.size (⟨start.toFinset, start⟩ : Worklist N) ≤
      Fintype.card N + start.length := by
    show Fintype.card N - start.toFinset.card + start.length ≤ _
    omega
  show n ∈ Worklist.order .queue G.edges _ _ ↔ _
  rw [Worklist.mem_order .queue G.edges hseen hfuel]
  constructor
  · rintro (hmem | ⟨hseen' | ⟨m, hm, hreach⟩, -⟩)
    · exact ⟨n, hmem, .refl⟩
    · exact ⟨n, List.mem_toFinset.1 hseen', .refl⟩
    · exact ⟨m, hm, Relation.ReflTransGen.mono (fun _ _ h => h.1) _ _ hreach⟩
  · rintro ⟨m, hm, hreach⟩
    by_cases hn : n ∈ start
    · exact Or.inl hn
    · have hnot : n ∉ start.toFinset := fun hmem => hn (List.mem_toFinset.1 hmem)
      right
      refine ⟨Or.inr ?_, hnot⟩
      obtain hmem | ⟨p, hp, hfresh⟩ :=
        Worklist.fresh_of_reaches G.edges (List.mem_toFinset.2 hm) hreach
      · exact absurd hmem hnot
      · exact ⟨p, List.mem_toFinset.1 hp, hfresh⟩

/-! ## Loops -/

/-- The nodes that a node reaches inside its procedure. -/
def reachable (n : N) : Finset N :=
  (Worklist.run .stack G.successors (Fintype.card N) ⟨{n}, [n]⟩).seen

/-- `computeLoops` for the procedure that starts at `r`: a node is on a loop when its strongly
connected component has another node, or when it is its own only successor. -/
def inLoop (r n : N) : Bool :=
  n ∈ G.reachable r &&
    ((∃ m ∈ G.reachable n, m ≠ n ∧ n ∈ G.reachable m) || G.successors n = [n])

end PointerGraph

end Cape.PointerAnalysis
