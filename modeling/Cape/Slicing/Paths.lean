import Cape.Slicing.Instrumentation

/-!
# Paths through a function

A path follows the successor edges and stops at a return: the edge from a return block to the
artificial exit block of its function is not taken. What a path executes is the code of its blocks
in order.
-/

set_option autoImplicit false

namespace Cape.Slicing

open Cape.Library

namespace BlockGraph

variable {N B : Type} (G : BlockGraph N B)

/-- The block holds a `ReturnInst`. -/
def Returns (b : B) : Prop := ∃ n ∈ G.nodes b, (G.key n).isReturn = true

/-- Control passes from one block to the next. -/
def Control (a b : B) : Prop := b ∈ G.successors a ∧ ¬ G.Returns a

/-- The first block of a function. -/
def entryBlock (f : String) : Option B := (G.functionBlocks f).head?

instance (b : B) : Decidable (G.Returns b) := by
  unfold Returns
  infer_instance

instance [DecidableEq B] (a b : B) : Decidable (G.Control a b) := by
  unfold Control
  infer_instance

variable {G}

theorem not_control_of_returns {a b : B} (ha : G.Returns a) : ¬ G.Control a b := fun h => h.2 ha

/-- A path visits a return block only at its end. -/
theorem count_return [DecidableEq B] {a b x : B} {π : List B} (hπ : Walk G.Control a π b)
    (hx : G.Returns x) : π.count x = if b = x then 1 else 0 := by
  induction hπ with
  | single a => rw [List.count_singleton, beq_eq_decide]; split <;> simp_all
  | @cons a b c π hab _ ih =>
      have hne : a ≠ x := fun heq => not_control_of_returns (heq ▸ hx) hab
      rw [List.count_cons_of_ne hne, ih]

end BlockGraph

/-- The shape of a dependence graph built from LLVM code: a block holds the nodes that have it as
their block, a `br` is the last of them, and blocks of one function lead to blocks of the same
function. -/
structure DependenceGraph.WellFormed {N B F T : Type} (G : DependenceGraph N B F T) : Prop where
  bblock : ∀ n b, G.bblock n = some b ↔ n ∈ G.nodes b
  nodup : ∀ b, (G.nodes b).Nodup
  br_last : ∀ n b, n ∈ G.nodes b → (G.key n).isBr = true → G.lastNode b = some n
  functionBlocks : ∀ f b, b ∈ G.functionBlocks f → G.functionName b = f
  control : ∀ a b, G.Control a b → G.functionName b = G.functionName a

/-- What a path executes. -/
def State.trace {N B T : Type} (s : State N B T) (π : List B) : List (Inst N) := π.flatMap s.code

end Cape.Slicing
