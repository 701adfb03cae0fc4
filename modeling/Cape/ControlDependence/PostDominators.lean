import Cape.Library.DominanceFrontier

/-!
# Post-dominators of a function

A function's control-flow graph, post-dominance, and the post-dominator tree that LLVM hands out. The
tree has several roots when the function has several exits; it then hangs under a node without a
block. `PostDominatorTree.Correct` says what is asked of it. `Correct.immediateDominator` puts such a
tree under one root, also when LLVM did not.
-/

set_option autoImplicit false

namespace Cape.ControlDependence.Standard

open Cape.Library

/-- The control-flow graph of a function. -/
structure Function (B : Type) where
  /-- The blocks in the order of the function. -/
  blocks : List B
  /-- The targets of the terminator, each as often as it is named. -/
  successors : B → List B
  isReturn : B → Bool
  mem_blocks : ∀ b, b ∈ blocks

/-- LLVM's tree. A node is given by its block; the node without a block is `none`. -/
structure PostDominatorTree (B : Type) where
  getRoots : List B
  getNode : B → Bool
  /-- The parent of a block's node, when it has one. -/
  getIDom : B → Option (Option B)
  children : Option B → List (Option B)
  properlyDominates : Option B → Option B → Bool

namespace Function

variable {B : Type} (F : Function B) (roots : List B)

/-- `predecessors(BB)`: a block as often as it has an edge to `BB`. -/
def predecessors [DecidableEq B] (b : B) : List B :=
  F.blocks.flatMap fun p => ((F.successors p).filter (· = b)).map fun _ => p

/-- Every way from `x` to an exit visits `b`. -/
def PostDominates (b x : B) : Prop :=
  ∀ e ∈ roots, ∀ π, Walk (Edge F.successors) x π e → b ∈ π

def StrictlyPostDominates (b x : B) : Prop := b ≠ x ∧ F.PostDominates roots b x

/-- **Standard control dependence** of `b` on `p`. -/
def ControlDependent (p b : B) : Prop :=
  (∃ s ∈ F.successors p, F.PostDominates roots b s) ∧ ¬ F.StrictlyPostDominates roots b p

/-- The edges backwards, from a node before all exits. -/
def Backward : Option B → Option B → Prop
  | none, some e => e ∈ roots
  | some b, some p => b ∈ F.successors p
  | _, none => False

variable {F roots}

@[simp] theorem mem_predecessors [DecidableEq B] {p b : B} :
    p ∈ F.predecessors b ↔ b ∈ F.successors p := by
  simp only [predecessors, List.mem_flatMap, List.mem_map, List.mem_filter, decide_eq_true_eq]
  constructor
  · rintro ⟨q, -, c, ⟨hc, rfl⟩, rfl⟩
    exact hc
  · intro hb
    exact ⟨p, F.mem_blocks p, b, ⟨hb, rfl⟩, rfl⟩

theorem walk_of_backward {e : B} {π : List (Option B)} {y : Option B}
    (h : Walk (F.Backward roots) (some e) π y) :
    ∃ (x : B) (σ : List B), y = some x ∧ π = σ.map some ∧ Walk (Edge F.successors) x σ.reverse e := by
  generalize ha : some e = a at h
  induction h generalizing e with
  | single a =>
      subst ha
      exact ⟨e, [e], rfl, rfl, .single e⟩
  | @cons a c y π hac _ ih =>
      subst ha
      cases c with
      | none => exact hac.elim
      | some c =>
          obtain ⟨x, σ, hy, rfl, hσ⟩ := ih rfl
          refine ⟨x, e :: σ, hy, rfl, ?_⟩
          rw [List.reverse_cons]
          exact hσ.snoc hac

theorem backward_of_walk {x e : B} {σ : List B} (h : Walk (Edge F.successors) x σ e) :
    Walk (F.Backward roots) (some e) (σ.reverse.map some) (some x) := by
  induction h with
  | single a => exact .single _
  | cons hac _ ih =>
      rw [List.reverse_cons, List.map_append]
      exact ih.snoc hac

/-- The walks from the top are the ways to the exits, backwards. -/
theorem walk_backward_iff {x : B} {π : List (Option B)} :
    Walk (F.Backward roots) none π (some x) ↔
      ∃ e ∈ roots, ∃ σ, Walk (Edge F.successors) x σ e ∧ π = none :: σ.reverse.map some := by
  constructor
  · intro h
    cases h with
    | @cons _ c _ π hc hrest =>
        cases c with
        | none => exact hc.elim
        | some e =>
            obtain ⟨y, σ, hy, rfl, hσ⟩ := walk_of_backward hrest
            obtain rfl := Option.some.inj hy
            refine ⟨e, hc, σ.reverse, hσ, ?_⟩
            rw [List.reverse_reverse]
  · rintro ⟨e, he, σ, hσ, rfl⟩
    exact .cons (show F.Backward roots none (some e) from he) (backward_of_walk hσ)

theorem fromRoot_iff {x : B} : FromRoot (F.Backward roots) none (some x) ↔
    ∃ e ∈ roots, ∃ σ, Walk (Edge F.successors) x σ e := by
  constructor
  · rintro ⟨π, hπ⟩
    obtain ⟨e, he, σ, hσ, -⟩ := walk_backward_iff.1 hπ
    exact ⟨e, he, σ, hσ⟩
  · rintro ⟨e, he, σ, hσ⟩
    exact ⟨_, walk_backward_iff.2 ⟨e, he, σ, hσ, rfl⟩⟩

theorem dominates_some {b x : B} :
    Dominates (F.Backward roots) none (some b) (some x) ↔ F.PostDominates roots b x := by
  constructor
  · intro h e he σ hσ
    have hmem := h _ (walk_backward_iff.2 ⟨e, he, σ, hσ, rfl⟩)
    simpa using hmem
  · intro h π hπ
    obtain ⟨e, he, σ, hσ, rfl⟩ := walk_backward_iff.1 hπ
    simpa using h e he σ hσ

theorem strictlyDominates_some {b x : B} :
    StrictlyDominates (F.Backward roots) none (some b) (some x) ↔
      F.StrictlyPostDominates roots b x := by
  rw [StrictlyDominates, StrictlyPostDominates, dominates_some, ne_eq, Option.some.injEq]

/-- Control dependence is the frontier of the backward graph. -/
theorem frontier_some {b p : B} :
    Frontier (F.Backward roots) none (some b) (some p) ↔ F.ControlDependent roots p b := by
  rw [Frontier, ControlDependent, strictlyDominates_some]
  refine and_congr_left fun _ => ⟨?_, ?_⟩
  · rintro ⟨s, hs, hdom⟩
    cases s with
    | none => exact absurd (hdom [none] (.single none)) (by simp)
    | some s => exact ⟨s, hs, dominates_some.1 hdom⟩
  · rintro ⟨s, hs, hdom⟩
    exact ⟨some s, hs, dominates_some.2 hdom⟩

end Function

namespace PostDominatorTree

variable {B : Type} (T : PostDominatorTree B) (F : Function B)

/-- The block of the parent: null when there is no parent, or one without a block. -/
def idomBB (b : B) : Option B := (T.getIDom b).join

/-- What a correct tree is. The node of a block has the closest strict post-dominator as its parent;
a block that has none is the root, or below the root without a block. -/
structure Correct : Prop where
  getNode_iff : ∀ b, T.getNode b = true ↔
    ∃ e ∈ T.getRoots, ∃ π, Walk (Edge F.successors) b π e
  idom_some : ∀ b d, T.getNode b = true → T.idomBB b = some d →
    F.StrictlyPostDominates T.getRoots d b ∧
      ∀ c, F.StrictlyPostDominates T.getRoots c b → F.PostDominates T.getRoots c d
  idom_none : ∀ b, T.getNode b = true → T.idomBB b = none →
    ∀ c, ¬ F.StrictlyPostDominates T.getRoots c b
  mem_children : ∀ b n, n ∈ T.children (some b) ↔
    ∃ c, n = some c ∧ T.getNode c = true ∧ T.idomBB c = some b
  properlyDominates_iff : ∀ b x, T.getNode b = true → T.getNode x = true →
    (T.properlyDominates (some b) (some x) = true ↔ F.StrictlyPostDominates T.getRoots b x)

/-- The tree under one root, the node before all exits. -/
def up : Option B → Option (Option B)
  | none => none
  | some b => some (T.idomBB b)

variable {T F}

@[simp] theorem up_none : T.up none = none := rfl

@[simp] theorem up_some (b : B) : T.up (some b) = some (T.idomBB b) := rfl

theorem getIDom_eq_some {b d : B} : T.getIDom b = some (some d) ↔ T.idomBB b = some d := by
  rw [idomBB, Option.join_eq_some_iff]

namespace Correct

variable (hT : T.Correct F) (hnode : ∀ b, T.getNode b = true)
include hT hnode

theorem fromRoot (n : Option B) : FromRoot (F.Backward T.getRoots) none n := by
  cases n with
  | none => exact ⟨[none], .single none⟩
  | some b => exact Function.fromRoot_iff.2 ((hT.getNode_iff b).1 (hnode b))

/-- **With a node for every block, the tree under one root has the immediate dominators of the
backward graph.** -/
theorem immediateDominator : ImmediateDominator (F.Backward T.getRoots) none T.up where
  root_none := rfl
  exists_of_ne := by
    intro n _ hn
    cases n with
    | none => exact absurd rfl hn
    | some b => exact ⟨_, rfl⟩
  strict := by
    intro n d _ hd
    cases n with
    | none => cases hd
    | some b =>
        obtain rfl := Option.some.inj hd
        cases hb : T.idomBB b with
        | none => exact ⟨nofun, Dominates.of_root _⟩
        | some d => exact Function.strictlyDominates_some.2 (hT.idom_some b d (hnode b) hb).1
  closest := by
    intro n d c _ hd hc
    cases n with
    | none => cases hd
    | some b =>
        obtain rfl := Option.some.inj hd
        cases c with
        | none => exact Dominates.of_root _
        | some c =>
            have hc := Function.strictlyDominates_some.1 hc
            cases hb : T.idomBB b with
            | none => exact absurd hc (hT.idom_none b (hnode b) hb c)
            | some d => exact Function.dominates_some.2 ((hT.idom_some b d (hnode b) hb).2 c hc)

end Correct

end PostDominatorTree

end Cape.ControlDependence.Standard
