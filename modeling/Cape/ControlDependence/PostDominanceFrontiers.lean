import Cape.ControlDependence.SCD
import Cape.Library.FinLiterals
import Cape.Library.UpdatedSets
import Cape.Library.Worklist
import Mathlib.Tactic.DeriveFintype

/-!
# Post-dominance frontiers on the blocks of a dependence graph

`LLVMDependenceGraph::computePostDominators` copies the tree of LLVM to the blocks of its own graph,
under a root of its own, and `PostDominanceFrontiers` then goes up that tree, from the last block of
a breadth-first order to the first. `standard_exact`: for different blocks the control dependences
that it adds are those of `SCD`, and both are standard control dependence.
-/

set_option autoImplicit false

namespace Cape.ControlDependence.Standard

open Cape.Library

/-- The blocks of a function's dependence graph. -/
inductive LLVMBBlock (B : Type) where
  | block (b : B)
  | unifiedExit
  | pdtRoot
  deriving DecidableEq, Fintype

namespace Legacy

/-- What the blocks hold. -/
structure Graph (B : Type) where
  ipostdom : LLVMBBlock B → Option (LLVMBBlock B)
  postDominators : LLVMBBlock B → Finset (LLVMBBlock B)
  postDomFrontiers : LLVMBBlock B → Finset (LLVMBBlock B)
  controlDeps : LLVMBBlock B → Finset (LLVMBBlock B)
  revControlDeps : LLVMBBlock B → Finset (LLVMBBlock B)

/-- What the loop over the blocks of the graph builds. -/
structure Building (B : Type) where
  graph : Graph B
  hasRoot : Bool
  built : Bool

section

variable {B : Type} [DecidableEq B]

/-- `successors()`: a block that returns also goes to the unified exit. -/
def successors (F : Function B) : LLVMBBlock B → List (LLVMBBlock B)
  | .block b =>
      (if F.isReturn b then [.unifiedExit] else []) ++ (F.successors b).map .block
  | _ => []

/-- `predecessors()`, a set. -/
def predecessors (F : Function B) (x : LLVMBBlock B) : Finset (LLVMBBlock B) :=
  (F.blocks.toFinset.image .block).filter fun p => x ∈ successors F p

namespace Graph

def empty : Graph B := ⟨fun _ => none, fun _ => ∅, fun _ => ∅, fun _ => ∅, fun _ => ∅⟩

def setIPostDom (g : Graph B) (BB d : LLVMBBlock B) : Graph B :=
  { g with
    ipostdom := Function.update g.ipostdom BB (some d)
    postDominators := Function.update g.postDominators d (insert BB (g.postDominators d)) }

def addPostDomFrontier (g : Graph B) (BB p : LLVMBBlock B) : Graph B :=
  { g with
    postDomFrontiers :=
      Function.update g.postDomFrontiers BB (insert p (g.postDomFrontiers BB)) }

def addControlDependence (g : Graph B) (p BB : LLVMBBlock B) : Graph B :=
  { g with
    controlDeps := Function.update g.controlDeps p (insert BB (g.controlDeps p))
    revControlDeps := Function.update g.revControlDeps BB (insert p (g.revControlDeps BB)) }

/-- A block of the frontier, and with `add_cd` the control dependence as well. -/
def addFrontier (add_cd : Bool) (g : Graph B) (BB p : LLVMBBlock B) : Graph B :=
  let g := g.addPostDomFrontier BB p
  if add_cd then g.addControlDependence p BB else g

/-- A predecessor that has another immediate post-dominator. -/
def addLocal (add_cd : Bool) (BB : LLVMBBlock B) (g : Graph B) (pred : LLVMBBlock B) : Graph B :=
  match g.ipostdom pred with
  | some ipdom => if ipdom ≠ BB then g.addFrontier add_cd BB pred else g
  | none => g

/-- A block of a child's frontier. -/
def addUp (add_cd : Bool) (BB : LLVMBBlock B) (g : Graph B) (df : LLVMBBlock B) : Graph B :=
  match g.ipostdom df with
  | some ipdom => if ipdom ≠ BB ∧ df ≠ BB then g.addFrontier add_cd BB df else g
  | none => g

variable (F : Function B) (O : Order (LLVMBBlock B))

/-- All that one child hands up. -/
def addChild (add_cd : Bool) (BB : LLVMBBlock B) (g : Graph B) (pdom : LLVMBBlock B) : Graph B :=
  (O.toList (g.postDomFrontiers pdom)).foldl (addUp add_cd BB) g

def computePDFrontiers (add_cd : Bool) (g : Graph B) (BB : LLVMBBlock B) : Graph B :=
  let g := (O.toList (predecessors F BB)).foldl (addLocal add_cd BB) g
  (O.toList (g.postDominators BB)).foldl (addChild O add_cd BB) g

/-- The breadth-first order of the tree. -/
def bfs (g : Graph B) (fuel : Nat) (root : LLVMBBlock B) : List (LLVMBBlock B) :=
  Worklist.order .queue (fun b => O.toList (g.postDominators b)) fuel ⟨{root}, [root]⟩

/-- `PostDominanceFrontiers::compute`: bottom-up. -/
def compute (fuel : Nat) (g : Graph B) (root : LLVMBBlock B) (add_cd : Bool) : Graph B :=
  (g.bfs O fuel root).reverse.foldl (computePDFrontiers F O add_cd) g

end Graph

variable (F : Function B) (T : PostDominatorTree B) (O : Order (LLVMBBlock B))

/-- The immediate post-dominator of one block: that of LLVM, or the root. -/
def addIPostDom (s : Building B) (x : LLVMBBlock B) : Building B :=
  match x with
  | .block b =>
      if T.getNode b then
        match T.idomBB b with
        | some pb => { s with graph := s.graph.setIPostDom x (.block pb), built := true }
        | none => { graph := s.graph.setIPostDom x .pdtRoot, hasRoot := true, built := true }
      else s
  | _ => s

/-- No tree: every block depends on all that go to it. -/
def addFallback (g : Graph B) (x : LLVMBBlock B) : Graph B :=
  (successors F x).foldl (fun g t => g.addControlDependence x t) g

/-- The loop over `getBlocks()`. -/
def build : Building B :=
  (O.toList (F.blocks.toFinset.image .block)).foldl (addIPostDom T) ⟨.empty, false, false⟩

/-- `LLVMDependenceGraph::computePostDominators` for one function. -/
def computePostDominators (fuel : Nat) (addPostDomFrontiers : Bool) : Graph B :=
  let s := build F T O
  let g :=
    if !s.built && addPostDomFrontiers then
      (O.toList (F.blocks.toFinset.image .block)).foldl (addFallback F) s.graph
    else s.graph
  if addPostDomFrontiers && s.hasRoot then g.compute F O fuel .pdtRoot true else g


variable {F T O}

/-! ## The copied tree -/

/-- A node of the tree under one root, in the graph. -/
def place : Option B → LLVMBBlock B
  | none => .pdtRoot
  | some b => .block b

omit [DecidableEq B] in
theorem place_inj {n m : Option B} : place n = place m ↔ n = m := by
  cases n <;> cases m <;> simp [place]

/-- The blocks hold the tree. -/
structure IsTree (T : PostDominatorTree B) (g : Graph B) : Prop where
  ipostdom : ∀ b, g.ipostdom (.block b) = some (place (T.idomBB b))
  postDominators : ∀ x y, x ∈ g.postDominators y ↔ ∃ c, x = .block c ∧ y = place (T.idomBB c)

omit [DecidableEq B] in
theorem IsTree.mem_postDominators {g : Graph B} (hg : IsTree T g) (x : LLVMBBlock B)
    (n : Option B) : x ∈ g.postDominators (place n) ↔ ∃ c, x = .block c ∧ T.idomBB c = n := by
  rw [hg.postDominators]
  exact exists_congr fun c => and_congr_right fun _ => by rw [place_inj, eq_comm]

/-- What the loop has built from the blocks it has seen. -/
structure BuiltFrom (T : PostDominatorTree B) (l : List (LLVMBBlock B)) (s : Building B) : Prop where
  ipostdom : ∀ b, .block b ∈ l → s.graph.ipostdom (.block b) = some (place (T.idomBB b))
  postDominators : ∀ x y, x ∈ s.graph.postDominators y ↔
    ∃ c, x = .block c ∧ x ∈ l ∧ y = place (T.idomBB c)
  hasRoot : ∀ b, .block b ∈ l → T.idomBB b = none → s.hasRoot = true
  built : l ≠ [] → s.built = true
  postDomFrontiers : s.graph.postDomFrontiers = fun _ => ∅
  controlDeps : s.graph.controlDeps = fun _ => ∅
  revControlDeps : s.graph.revControlDeps = fun _ => ∅

theorem addIPostDom_block {b : B} (hb : T.getNode b = true) (s : Building B) :
    addIPostDom T s (.block b) =
      ⟨s.graph.setIPostDom (.block b) (place (T.idomBB b)), s.hasRoot || (T.idomBB b).isNone,
        true⟩ := by
  rw [addIPostDom, if_pos hb]
  cases T.idomBB b with
  | none => simp [place]
  | some d => simp [place]

theorem BuiltFrom.step {l : List (LLVMBBlock B)} {s : Building B} {b : B}
    (h : BuiltFrom T l s) (hb : T.getNode b = true) :
    BuiltFrom T (l ++ [.block b]) (addIPostDom T s (.block b)) := by
  rw [addIPostDom_block hb]
  refine ⟨fun c hc => ?_, fun x y => ?_, fun c hc hnone => ?_, fun _ => rfl,
    h.postDomFrontiers, h.controlDeps, h.revControlDeps⟩
  · by_cases hcb : c = b
    · subst hcb
      exact Function.update_self _ _ _
    · have hmem : LLVMBBlock.block c ∈ l := by simpa [hcb] using hc
      have hne : LLVMBBlock.block c ≠ .block b := fun h => hcb (LLVMBBlock.block.inj h)
      exact (Function.update_of_ne hne _ _).trans (h.ipostdom c hmem)
  · show x ∈ Function.update s.graph.postDominators _ _ y ↔ _
    by_cases hy : y = place (T.idomBB b)
    · subst hy
      rw [Function.update_self, Finset.mem_insert, h.postDominators]
      constructor
      · rintro (rfl | ⟨c, rfl, hc, hcn⟩)
        · exact ⟨b, rfl, by simp, rfl⟩
        · exact ⟨c, rfl, List.mem_append_left _ hc, hcn⟩
      · rintro ⟨c, rfl, hc, hcn⟩
        obtain hc | hc := List.mem_append.1 hc
        · exact Or.inr ⟨c, rfl, hc, hcn⟩
        · exact Or.inl (List.mem_singleton.1 hc)
    · -- a block that is placed elsewhere gains nothing
      rw [Function.update_of_ne hy, h.postDominators]
      refine exists_congr fun c => and_congr_right fun hx => ?_
      subst hx
      constructor
      · rintro ⟨hc, hcn⟩
        exact ⟨List.mem_append_left _ hc, hcn⟩
      · rintro ⟨hc, hcn⟩
        obtain hc | hc := List.mem_append.1 hc
        · exact ⟨hc, hcn⟩
        · obtain rfl := LLVMBBlock.block.inj (List.mem_singleton.1 hc)
          exact absurd hcn hy
  · obtain hc | hc := List.mem_append.1 hc
    · show (s.hasRoot || _) = true
      rw [h.hasRoot c hc hnone, Bool.true_or]
    · obtain rfl := LLVMBBlock.block.inj (List.mem_singleton.1 hc)
      show (s.hasRoot || _) = true
      rw [hnone, Option.isNone_none, Bool.or_true]

theorem builtFrom_build (hnode : ∀ b, T.getNode b = true) :
    BuiltFrom T (O.toList (F.blocks.toFinset.image .block)) (build F T O) := by
  refine FallibleLoop.prefix_induction_foldl (fun l₁ x l₂ hl s hs => ?_) ?_
  · have hx : x ∈ O.toList (F.blocks.toFinset.image .block) :=
      hl ▸ List.mem_append_right _ List.mem_cons_self
    obtain ⟨b, -, rfl⟩ := Finset.mem_image.1 ((O.mem_toList _ _).1 hx)
    exact hs.step (hnode b)
  · exact ⟨fun b hb => absurd hb List.not_mem_nil, fun x n => iff_of_false
      (Finset.notMem_empty x) fun ⟨c, hc⟩ => List.not_mem_nil hc.2.1,
      fun b hb => absurd hb List.not_mem_nil, fun h => absurd rfl h, rfl, rfl, rfl⟩

theorem mem_ourBlocks (b : B) : .block b ∈ O.toList (F.blocks.toFinset.image .block) := by
  rw [O.mem_toList]
  exact Finset.mem_image_of_mem _ (List.mem_toFinset.2 (F.mem_blocks b))

/-! ## One block -/

/-- What holds of the graph while the frontiers are computed. -/
structure Inv (F : Function B) (T : PostDominatorTree B) (g : Graph B) : Prop where
  tree : IsTree T g
  sound : ∀ n x, x ∈ g.postDomFrontiers (place n) → ∃ p, x = .block p ∧
    (n ≠ some p → Frontier (F.Backward T.getRoots) none n (some p))
  controlDeps : ∀ x p, x ∈ g.controlDeps p ↔ p ∈ g.postDomFrontiers x
  revControlDeps : ∀ x p, p ∈ g.revControlDeps x ↔ p ∈ g.postDomFrontiers x

/-- The frontier of the node is all there, but perhaps for the node itself. -/
def Complete (F : Function B) (T : PostDominatorTree B) (n : Option B) (g : Graph B) : Prop :=
  ∀ p, n ≠ some p → Frontier (F.Backward T.getRoots) none n (some p) →
    .block p ∈ g.postDomFrontiers (place n)

/-- What is added stays in step with the control dependences. -/
theorem Inv.addFrontier {g : Graph B} {n : Option B} {p : B} (h : Inv F T g)
    (hp : n ≠ some p → Frontier (F.Backward T.getRoots) none n (some p)) :
    Inv F T (g.addFrontier true (place n) (.block p)) := by
  refine ⟨⟨h.tree.ipostdom, h.tree.postDominators⟩, fun m x hx => ?_, fun x q => ?_,
    fun x q => ?_⟩
  · obtain ⟨hm, rfl⟩ | hx := mem_update_insert.1 hx
    · obtain rfl := place_inj.1 hm
      exact ⟨p, rfl, hp⟩
    · exact h.sound m x hx
  · refine mem_update_insert.trans (Iff.trans ?_ mem_update_insert.symm)
    exact or_congr and_comm (h.controlDeps x q)
  · exact mem_update_insert.trans (Iff.trans (or_congr_right (h.revControlDeps x q))
      mem_update_insert.symm)

theorem le_addFrontier (g : Graph B) (BB p : LLVMBBlock B) :
    g.postDomFrontiers ≤ (g.addFrontier true BB p).postDomFrontiers :=
  fun _ _ hx => mem_update_insert.2 (Or.inr hx)

theorem mem_addFrontier (g : Graph B) (BB p : LLVMBBlock B) :
    p ∈ (g.addFrontier true BB p).postDomFrontiers BB :=
  mem_update_insert.2 (Or.inl ⟨rfl, rfl⟩)

theorem addLocal_block {g : Graph B} (h : IsTree T g) (n : Option B) (p : B) :
    g.addLocal true (place n) (.block p) =
      if T.idomBB p ≠ n then g.addFrontier true (place n) (.block p) else g := by
  simp only [Graph.addLocal, h.ipostdom, ne_eq, place_inj]

theorem addUp_block {g : Graph B} (h : IsTree T g) (n : Option B) (p : B) :
    g.addUp true (place n) (.block p) =
      if T.idomBB p ≠ n ∧ n ≠ some p then g.addFrontier true (place n) (.block p) else g := by
  have hblock : (LLVMBBlock.block p ≠ place n) ↔ n ≠ some p := by
    rw [ne_eq, eq_comm, show LLVMBBlock.block p = place (some p) from rfl, place_inj]
  simp only [Graph.addUp, h.ipostdom, hblock, ne_eq, place_inj]

theorem mem_predecessors {x y : LLVMBBlock B} :
    y ∈ predecessors F x ↔ ∃ p, y = .block p ∧ x ∈ successors F y := by
  simp only [predecessors, Finset.mem_filter, Finset.mem_image, List.mem_toFinset]
  constructor
  · rintro ⟨⟨p, -, rfl⟩, hx⟩
    exact ⟨p, rfl, hx⟩
  · rintro ⟨p, rfl, hx⟩
    exact ⟨⟨p, F.mem_blocks p, rfl⟩, hx⟩

omit [DecidableEq B] in
theorem place_mem_successors {n : Option B} {p : B} :
    place n ∈ successors F (.block p) ↔ ∃ b ∈ F.successors p, n = some b := by
  have hexit : place n ∉ (if F.isReturn p then [LLVMBBlock.unifiedExit] else []) := by
    cases n <;> split <;> simp [place]
  simp only [successors, List.mem_append, hexit, false_or, List.mem_map]
  cases n with
  | none => simp [place]
  | some b => simp [place]

omit [DecidableEq B] in
/-- A loop that adds to the frontier of a node, one part for each element. -/
theorem loop_spec {step : Graph B → LLVMBBlock B → Graph B} {I : Graph B → Prop}
    {Q : LLVMBBlock B → B → Prop} {n : Option B} {l : List (LLVMBBlock B)}
    (hstep : ∀ x ∈ l, ∀ g, I g → I (step g x) ∧
      g.postDomFrontiers ≤ (step g x).postDomFrontiers ∧
      ∀ p, Q x p → .block p ∈ (step g x).postDomFrontiers (place n)) {g : Graph B} (hg : I g) :
    I (l.foldl step g) ∧ g.postDomFrontiers ≤ (l.foldl step g).postDomFrontiers ∧
      ∀ x ∈ l, ∀ p, Q x p → .block p ∈ (l.foldl step g).postDomFrontiers (place n) :=
  FallibleLoop.keeps_each_done_foldl
    (r := fun g g' : Graph B => g.postDomFrontiers ≤ g'.postDomFrontiers)
    (P := fun x g => ∀ p, Q x p → .block p ∈ g.postDomFrontiers (place n))
    (fun _ => le_refl _) (fun h h' => le_trans h h') (fun hle hP p hp => hle _ (hP p hp)) hstep hg

section

variable (hT : T.Correct F) (hnode : ∀ b, T.getNode b = true)
include hT hnode

/-- A predecessor that has another immediate post-dominator is in the frontier. -/
theorem addLocal_spec {n : Option B} {x : LLVMBBlock B} (hx : x ∈ predecessors F (place n))
    {g : Graph B} (h : Inv F T g) :
    Inv F T (g.addLocal true (place n) x) ∧
      g.postDomFrontiers ≤ (g.addLocal true (place n) x).postDomFrontiers ∧
      ∀ p, x = .block p ∧ T.idomBB p ≠ n →
        .block p ∈ (g.addLocal true (place n) x).postDomFrontiers (place n) := by
  obtain ⟨p, rfl, hsucc⟩ := mem_predecessors.1 hx
  obtain ⟨b, hb, rfl⟩ := place_mem_successors.1 hsucc
  rw [addLocal_block h.tree]
  split
  · next hne =>
      have hfr := (hT.immediateDominator hnode).frontier_of_edge (hT.fromRoot hnode)
        (show F.Backward T.getRoots (some b) (some p) from hb) fun h => hne (Option.some.inj h)
      refine ⟨h.addFrontier fun _ => hfr, le_addFrontier _ _ _, ?_⟩
      rintro q ⟨hq, -⟩
      obtain rfl := LLVMBBlock.block.inj hq
      exact mem_addFrontier _ _ _
  · next hne =>
      refine ⟨h, le_refl _, ?_⟩
      rintro q ⟨hq, hq'⟩
      obtain rfl := LLVMBBlock.block.inj hq
      exact absurd hq' hne

/-- A block of a child's frontier. -/
theorem addUp_spec {n : Option B} {c : B} (hc : T.idomBB c = n) {x : LLVMBBlock B}
    (hx : ∃ p, x = .block p ∧
      (some c ≠ some p → Frontier (F.Backward T.getRoots) none (some c) (some p)))
    {g : Graph B} (h : Inv F T g) :
    Inv F T (g.addUp true (place n) x) ∧
      g.postDomFrontiers ≤ (g.addUp true (place n) x).postDomFrontiers ∧
      ∀ p, x = .block p ∧ T.idomBB p ≠ n ∧ n ≠ some p →
        .block p ∈ (g.addUp true (place n) x).postDomFrontiers (place n) := by
  have himm := hT.immediateDominator hnode
  have hall := hT.fromRoot hnode
  obtain ⟨p, rfl, hfr⟩ := hx
  rw [addUp_block h.tree]
  split
  · next hne =>
      have hup : T.up (some c) = some n := congrArg some hc
      -- the child itself is not handed up: its immediate post-dominator is the block
      have hpc : (some p : Option B) ≠ some c := by
        rintro heq
        obtain rfl := Option.some.inj heq
        exact hne.1 hc
      have hfr := hfr hpc.symm
      refine ⟨h.addFrontier fun _ => ?_, le_addFrontier _ _ _, ?_⟩
      · refine himm.frontier_of_child hall hup hfr fun hstrict => hne.1 ?_
        exact Option.some.inj ((himm.strictlyDominates_iff_idom hall hup hfr hpc).1 hstrict)
      · rintro q ⟨hq, -⟩
        obtain rfl := LLVMBBlock.block.inj hq
        exact mem_addFrontier _ _ _
  · next hne =>
      refine ⟨h, le_refl _, ?_⟩
      rintro q ⟨hq, hq'⟩
      obtain rfl := LLVMBBlock.block.inj hq
      exact absurd hq' hne

/-- A child whose frontier is there. -/
theorem addChild_spec {n : Option B} {c : B} (hc : T.idomBB c = n) {g : Graph B} (h : Inv F T g) :
    Inv F T (g.addChild O true (place n) (.block c)) ∧
      g.postDomFrontiers ≤ (g.addChild O true (place n) (.block c)).postDomFrontiers ∧
      ∀ p, .block p ∈ g.postDomFrontiers (.block c) → T.idomBB p ≠ n → n ≠ some p →
        .block p ∈ (g.addChild O true (place n) (.block c)).postDomFrontiers (place n) := by
  have hstep : ∀ x ∈ O.toList (g.postDomFrontiers (.block c)), ∀ g', Inv F T g' → _ :=
    fun x hx g' hg' => addUp_spec hT hnode hc (h.sound (some c) x ((O.mem_toList _ _).1 hx)) hg'
  obtain ⟨hinv, hle, hdone⟩ := loop_spec hstep h
  exact ⟨hinv, hle, fun p hp hne hnp => hdone _ ((O.mem_toList _ _).2 hp) p ⟨rfl, hne, hnp⟩⟩

/-- **One block**: when the frontiers of the children are there, that of the block is after it. -/
theorem computePDFrontiers_spec {g : Graph B} {n : Option B} (h : Inv F T g)
    (hchildren : ∀ c, T.idomBB c = n → Complete F T (some c) g) :
    Inv F T (g.computePDFrontiers F O true (place n)) ∧
      g.postDomFrontiers ≤ (g.computePDFrontiers F O true (place n)).postDomFrontiers ∧
      Complete F T n (g.computePDFrontiers F O true (place n)) := by
  have himm := hT.immediateDominator hnode
  have hall := hT.fromRoot hnode
  have hpreds : ∀ x ∈ O.toList (predecessors F (place n)), ∀ g', Inv F T g' → _ :=
    fun x hx g' hg' => addLocal_spec hT hnode ((O.mem_toList _ _).1 hx) hg'
  obtain ⟨hinv₁, hle₁, hlocal⟩ := loop_spec hpreds h
  generalize hg₁ : (O.toList (predecessors F (place n))).foldl (Graph.addLocal true (place n)) g
    = g₁ at hinv₁ hle₁ hlocal
  -- a child's frontier was there before the local part, and still is
  have hchild : ∀ x ∈ O.toList (g₁.postDominators (place n)), ∀ g', Inv F T g' ∧
      g.postDomFrontiers ≤ g'.postDomFrontiers →
      (Inv F T (g'.addChild O true (place n) x) ∧
        g.postDomFrontiers ≤ (g'.addChild O true (place n) x).postDomFrontiers) ∧
      g'.postDomFrontiers ≤ (g'.addChild O true (place n) x).postDomFrontiers ∧
      ∀ p, (∃ c, x = .block c ∧ Frontier (F.Backward T.getRoots) none (some c) (some p) ∧
        T.idomBB p ≠ n ∧ n ≠ some p) →
        .block p ∈ (g'.addChild O true (place n) x).postDomFrontiers (place n) := by
    intro x hx g' hg'
    obtain ⟨c, rfl, hc⟩ := (hinv₁.tree.mem_postDominators x n).1 ((O.mem_toList _ _).1 hx)
    obtain ⟨hinv, hle, hdone⟩ := addChild_spec (O := O) hT hnode hc hg'.1
    refine ⟨⟨hinv, hg'.2.trans hle⟩, hle, ?_⟩
    rintro p ⟨d, hd, hfr, hne, hnp⟩
    obtain rfl := LLVMBBlock.block.inj hd
    have hcp : some c ≠ some p := by
      rintro heq
      obtain rfl := Option.some.inj heq
      exact hne hc
    exact hdone p (hg'.2 _ (hchildren c hc p hcp hfr)) hne hnp
  obtain ⟨hinv, hle₂, hdone⟩ := loop_spec hchild ⟨hinv₁, hle₁⟩
  rw [Graph.computePDFrontiers, hg₁]
  refine ⟨hinv.1, hinv.2, fun p hnp hfr => ?_⟩
  obtain ⟨hedge, hne⟩ | ⟨m, hm, hmp⟩ := himm.frontier_cases hall hfr
  · cases n with
    | none => exact absurd hfr.2 fun h => h ⟨nofun, Dominates.of_root _⟩
    | some b =>
        have hpred : LLVMBBlock.block p ∈ predecessors F (place (some b)) :=
          mem_predecessors.2 ⟨p, rfl, place_mem_successors.2 ⟨b, hedge, rfl⟩⟩
        exact hle₂ _ (hlocal _ ((O.mem_toList _ _).2 hpred) p
          ⟨rfl, fun h => hne (congrArg some h)⟩)
  · cases m with
    | none => cases hm
    | some c =>
        have hc : T.idomBB c = n := Option.some.inj hm
        have hmem := (hinv₁.tree.mem_postDominators (.block c) n).2 ⟨c, rfl, hc⟩
        refine hdone _ ((O.mem_toList _ _).2 hmem) p ⟨c, rfl, hmp, fun h => hfr.2 ?_, hnp⟩
        exact himm.strict (some p) n (hall _) (congrArg some h)

/-! ## The order, and the whole function -/

omit hT hnode [DecidableEq B] in
/-- The search starts with its root. -/
theorem bfs_start [DecidableEq (LLVMBBlock B)] {x : LLVMBBlock B} :
    ∀ y ∈ (⟨{x}, [x]⟩ : Worklist (LLVMBBlock B)).pending,
      y ∈ (⟨{x}, [x]⟩ : Worklist (LLVMBBlock B)).seen := by
  intro y hy
  exact Finset.mem_singleton.2 (List.mem_singleton.1 hy)

variable [Fintype B]

omit hT hnode in
theorem mem_bfs {g : Graph B} {fuel : Nat} (hfuel : Fintype.card (LLVMBBlock B) ≤ fuel)
    {x : LLVMBBlock B} : x ∈ g.bfs O fuel .pdtRoot ↔ x = .pdtRoot ∨
      x ≠ .pdtRoot ∧ Relation.ReflTransGen
        (fun y z => z ∈ g.postDominators y ∧ z ≠ .pdtRoot) .pdtRoot x := by
  let w : Worklist (LLVMBBlock B) := ⟨{.pdtRoot}, [.pdtRoot]⟩
  have hsize : Worklist.size w ≤ fuel := by
    have hpos : 0 < Fintype.card (LLVMBBlock B) := Fintype.card_pos_iff.2 ⟨.pdtRoot⟩
    simp only [Worklist.size, w, Finset.card_singleton, List.length_singleton]
    omega
  have hfresh : Worklist.Fresh (fun b => O.toList (g.postDominators b)) {.pdtRoot} =
      fun y z => z ∈ g.postDominators y ∧ z ≠ .pdtRoot := by
    funext y z
    rw [Worklist.Fresh, O.mem_toList, Finset.mem_singleton]
  refine (Worklist.mem_order .queue _ bfs_start hsize x).trans ?_
  simp only [List.mem_singleton, Worklist.Target, hfresh, Finset.mem_singleton, exists_eq_left]
  tauto

omit hT hnode in
/-- Only nodes of the tree are in the order. -/
theorem exists_place_of_mem_bfs {g : Graph B} (hg : IsTree T g) {fuel : Nat}
    (hfuel : Fintype.card (LLVMBBlock B) ≤ fuel) {x : LLVMBBlock B}
    (hx : x ∈ g.bfs O fuel .pdtRoot) : ∃ n, x = place n := by
  obtain rfl | ⟨-, hreach⟩ := (mem_bfs hfuel).1 hx
  · exact ⟨none, rfl⟩
  · clear hx
    induction hreach with
    | refl => exact ⟨none, rfl⟩
    | tail _ hstep ih =>
        obtain ⟨n, rfl⟩ := ih
        obtain ⟨c, rfl, -⟩ := (hg.mem_postDominators _ n).1 hstep.1
        exact ⟨some c, rfl⟩

/-- Every block is in the order. -/
theorem block_mem_bfs {g : Graph B} (hg : IsTree T g) {fuel : Nat}
    (hfuel : Fintype.card (LLVMBBlock B) ≤ fuel) (b : B) : .block b ∈ g.bfs O fuel .pdtRoot := by
  have himm := hT.immediateDominator hnode
  refine (mem_bfs hfuel).2 (Or.inr ⟨nofun, ?_⟩)
  have hstrict : StrictlyDominates (F.Backward T.getRoots) none none (some b) :=
    ⟨Option.some_ne_none b |>.symm, Dominates.of_root _⟩
  -- from the root down to the block
  generalize hn : (some b : Option B) = n at hstrict
  have hchain := (himm.transGen_iff (hT.fromRoot hnode n)).2 hstrict
  clear hstrict
  induction hchain using Relation.TransGen.head_induction_on generalizing b with
  | @single n hstep =>
      subst hn
      exact .single ⟨(hg.mem_postDominators _ none).2 ⟨b, rfl, Option.some.inj hstep⟩, nofun⟩
  | @head n m hstep hrest ih =>
      subst hn
      cases m with
      | none =>
          obtain ⟨_, hnone, -⟩ := Relation.TransGen.head'_iff.1 hrest
          cases hnone
      | some d =>
          refine (ih d rfl).tail ⟨?_, nofun⟩
          exact (hg.mem_postDominators _ (some d)).2 ⟨b, rfl, Option.some.inj hstep⟩

omit hT hnode [Fintype B] in
/-- A child is taken after its parent. -/
theorem child_after {g : Graph B} (hg : IsTree T g) {fuel : Nat} {n : Option B} {c : B}
    (hc : T.idomBB c = n) {l₁ l₂ : List (LLVMBBlock B)}
    (h : g.bfs O fuel .pdtRoot = l₁ ++ place n :: l₂) : .block c ∉ l₁ := by
  intro hmem
  obtain ⟨m₁, m₂, rfl⟩ := List.append_of_mem hmem
  have hnodup : (g.bfs O fuel .pdtRoot).Nodup :=
    Worklist.nodup_order .queue _ fuel (List.nodup_singleton _) bfs_start
  obtain hroot | ⟨y, hy, hcy⟩ := Worklist.exists_before_of_order .queue _ fuel
    (h.trans (List.append_assoc m₁ (.block c :: m₂) _))
  · cases List.mem_singleton.1 hroot
  · -- the element before it is its parent, which would be in the order twice
    obtain ⟨d, hd, rfl⟩ := (hg.postDominators _ y).1 ((O.mem_toList _ _).1 hcy)
    obtain rfl := LLVMBBlock.block.inj hd
    rw [hc] at hy
    rw [h] at hnodup
    exact (List.nodup_append.1 hnodup).2.2 _ (List.mem_append_left _ hy) _ List.mem_cons_self rfl

/-- **All blocks, bottom-up.** -/
theorem compute_spec {fuel : Nat} (hfuel : Fintype.card (LLVMBBlock B) ≤ fuel) {g : Graph B}
    (h : Inv F T g) :
    Inv F T (g.compute F O fuel .pdtRoot true) ∧
      ∀ b, Complete F T (some b) (g.compute F O fuel .pdtRoot true) := by
  have hrun : Inv F T (g.compute F O fuel .pdtRoot true) ∧
      ∀ n, place n ∈ (g.bfs O fuel .pdtRoot).reverse →
        Complete F T n (g.compute F O fuel .pdtRoot true) := by
    refine FallibleLoop.prefix_induction_foldl
      (I := fun l₁ g => Inv F T g ∧ ∀ n, place n ∈ l₁ → Complete F T n g) ?_
      ⟨h, fun n hn => absurd hn List.not_mem_nil⟩
    rintro l₁ x l₂ hl g' ⟨hg', hdone⟩
    have horder : g.bfs O fuel .pdtRoot = l₂.reverse ++ x :: l₁.reverse := by
      rw [← List.reverse_reverse (g.bfs O _ _), hl]
      simp
    have hx : x ∈ g.bfs O fuel .pdtRoot :=
      horder ▸ List.mem_append_right _ List.mem_cons_self
    obtain ⟨n, rfl⟩ := exists_place_of_mem_bfs h.tree hfuel hx
    -- the children come after the block in the order, so they are done
    have hchildren : ∀ c, T.idomBB c = n → Complete F T (some c) g' := by
      intro c hc
      have hmem := block_mem_bfs (O := O) hT hnode h.tree hfuel c
      rw [horder] at hmem
      obtain hmem | hmem := List.mem_append.1 hmem
      · exact absurd hmem (child_after h.tree hc horder)
      · obtain hmem | hmem := List.mem_cons.1 hmem
        · have hn : n = some c := (place_inj (n := some c)).1 hmem |>.symm
          have hself : T.up (some c) = some (some c) := congrArg some (hc.trans hn)
          have hstrict := (hT.immediateDominator hnode).strict _ _ (hT.fromRoot hnode _) hself
          exact absurd rfl hstrict.1
        · exact hdone (some c) (List.mem_reverse.1 hmem)
    obtain ⟨hinv, hle, hcomplete⟩ := computePDFrontiers_spec (O := O) hT hnode hg' hchildren
    refine ⟨hinv, fun m hm => ?_⟩
    obtain hm | hm := List.mem_append.1 hm
    · exact fun p hne hp => hle _ (hdone m hm p hne hp)
    · obtain rfl := place_inj.1 (List.mem_singleton.1 hm)
      exact hcomplete
  exact ⟨hrun.1, fun b => hrun.2 (some b) (List.mem_reverse.2 (block_mem_bfs hT hnode h.tree hfuel b))⟩

/-- **The dependence graph has the control dependences between different blocks.** -/
theorem mem_controlDeps_iff {fuel : Nat} (hfuel : Fintype.card (LLVMBBlock B) ≤ fuel) {p b : B}
    (hne : p ≠ b) :
    .block b ∈ (computePostDominators F T O fuel true).controlDeps (.block p) ↔
      F.ControlDependent T.getRoots p b := by
  have hbuilt := builtFrom_build (F := F) (T := T) (O := O) hnode
  have hour := fun b => mem_ourBlocks (F := F) (O := O) b
  have hsome : (build F T O).built = true := hbuilt.built (List.ne_nil_of_mem (hour b))
  have hroot : (build F T O).hasRoot = true := by
    -- above the block is one that has no block above it
    have hstrict : StrictlyDominates (F.Backward T.getRoots) none none (some b) :=
      ⟨Option.some_ne_none b |>.symm, Dominates.of_root _⟩
    obtain ⟨c, hc, -⟩ := (hT.immediateDominator hnode).exists_child (hT.fromRoot hnode) hstrict
    cases c with
    | none => cases hc
    | some c => exact hbuilt.hasRoot c (hour c) (Option.some.inj hc)
  have hinv : Inv F T (build F T O).graph := by
    refine ⟨⟨fun c => hbuilt.ipostdom c (hour c), fun x y => ?_⟩, fun n x hx => ?_,
      fun x q => ?_, fun x q => ?_⟩
    · rw [hbuilt.postDominators]
      refine exists_congr fun c => and_congr_right fun hx => ?_
      subst hx
      exact and_iff_right (hour c)
    · rw [hbuilt.postDomFrontiers] at hx
      exact absurd hx (Finset.notMem_empty x)
    · rw [hbuilt.postDomFrontiers, hbuilt.controlDeps]
      exact iff_of_false (Finset.notMem_empty x) (Finset.notMem_empty q)
    · rw [hbuilt.postDomFrontiers, hbuilt.revControlDeps]
  have hrun : computePostDominators F T O fuel true =
      (build F T O).graph.compute F O fuel .pdtRoot true := by
    simp [computePostDominators, hsome, hroot]
  obtain ⟨hend, hcomplete⟩ := compute_spec (O := O) hT hnode hfuel hinv
  have hnp : (some b : Option B) ≠ some p := fun h => hne (Option.some.inj h).symm
  rw [hrun, hend.controlDeps, ← Function.frontier_some]
  constructor
  · intro hmem
    obtain ⟨q, hq, hfr⟩ := hend.sound (some b) _ hmem
    obtain rfl := LLVMBBlock.block.inj hq
    exact hfr hnp
  · exact hcomplete b p hnp

end

end

end Legacy

/-! ## Both -/

section

variable {B : Type} [DecidableEq B] [Fintype B] {F : Function B} {T : PostDominatorTree B}

omit [DecidableEq B] in
theorem card_llvmBBlock_le : Fintype.card (LLVMBBlock B) ≤ Fintype.card B + 2 := by
  let f : LLVMBBlock B → Option (Option B)
    | .block b => some (some b)
    | .unifiedExit => some none
    | .pdtRoot => none
  have hf : Function.Injective f := by
    rintro (a | _ | _) (b | _ | _) h <;> simp_all [f]
  simpa using Fintype.card_le_of_injective f hf

/-- **Both implementations compute standard control dependence**, so they agree. -/
theorem standard_exact (hT : T.Correct F) (hnode : ∀ b, T.getNode b = true)
    (O : Order (LLVMBBlock B)) : ∃ n, ∀ fuel ≥ n, ∃ deps,
      SCD.computePostDominators F T fuel = some deps ∧ ∀ P b, P ≠ b →
        (P ∈ deps.dependencies b ↔ F.ControlDependent T.getRoots P b) ∧
        (.block b ∈ (Legacy.computePostDominators F T O fuel true).controlDeps (.block P) ↔
          F.ControlDependent T.getRoots P b) ∧
        (P ∈ deps.dependencies b ↔
          .block b ∈ (Legacy.computePostDominators F T O fuel true).controlDeps (.block P)) := by
  refine ⟨Fintype.card B + 2, fun fuel hfuel => ?_⟩
  obtain ⟨deps, hdeps, hexact, -⟩ := SCD.computePostDominators_exact hT hnode
    (by rw [Fintype.card_option]; omega : Fintype.card (Option B) < fuel)
  refine ⟨deps, hdeps, fun P b hne => ?_⟩
  have hlegacy := Legacy.mem_controlDeps_iff (O := O) hT hnode
    (card_llvmBBlock_le.trans hfuel) hne
  exact ⟨hexact P b, hlegacy, (hexact P b).trans hlegacy.symm⟩

end

/-! ## A branch over one block -/

/-- `0` goes to `1` or to `2`, `1` goes to `2`, and `2` returns. -/
def skip : Function (Fin 3) where
  blocks := [0, 1, 2]
  successors b := if b = 0 then [1, 2] else if b = 1 then [2] else []
  isReturn b := b = 2
  mem_blocks := by decide

def skipTree : PostDominatorTree (Fin 3) where
  getRoots := [2]
  getNode _ := true
  getIDom b := if b = 2 then some none else some (some 2)
  children n := if n = some 2 then [some 0, some 1] else if n = none then [some 2] else []
  properlyDominates n m := n = some 2 ∧ m ≠ some 2 ∧ m ≠ none

theorem skip_edge : ∀ x, x ≠ 2 → Edge skip.successors x 2 := by
  show ∀ x, x ≠ 2 → 2 ∈ skip.successors x
  decide

theorem skip_strictlyPostDominates {b x : Fin 3} :
    skip.StrictlyPostDominates [2] b x ↔ b = 2 ∧ x ≠ 2 := by
  constructor
  · rintro ⟨hne, h⟩
    by_cases hx : x = 2
    · subst hx
      exact absurd (List.mem_singleton.1 (h 2 (by simp) [2] (.single 2))) hne
    · have hmem := h 2 (by simp) [x, 2] (.cons (skip_edge x hx) (.single 2))
      obtain rfl | hmem := List.mem_cons.1 hmem
      · exact absurd rfl hne
      · exact ⟨List.mem_singleton.1 hmem, hx⟩
  · rintro ⟨rfl, hx⟩
    refine ⟨hx.symm, fun e he π hπ => ?_⟩
    obtain rfl := List.mem_singleton.1 he
    exact hπ.end_mem

theorem skipTree_correct : skipTree.Correct skip where
  getNode_iff b := by
    refine iff_of_true rfl ⟨2, by simp [skipTree], ?_⟩
    by_cases hb : b = 2
    · subst hb
      exact ⟨_, .single 2⟩
    · exact ⟨_, .cons (skip_edge b hb) (.single 2)⟩
  idom_some b d _ hd := by
    have hb : b ≠ 2 ∧ d = 2 := by
      revert b d
      decide
    obtain ⟨hb, rfl⟩ := hb
    refine ⟨skip_strictlyPostDominates.2 ⟨rfl, hb⟩, fun c hc => ?_⟩
    obtain rfl := (skip_strictlyPostDominates.1 hc).1
    exact fun e he π hπ => hπ.start_mem
  idom_none b _ hb c hc := by
    have htop : ∀ b, skipTree.idomBB b = none → b = 2 := by decide
    exact (skip_strictlyPostDominates.1 hc).2 (htop b hb)
  mem_children := by decide
  properlyDominates_iff b x _ _ := by
    refine Iff.trans ?_ skip_strictlyPostDominates.symm
    revert b x
    decide

/-- Sorted by block. -/
def skipOrder : Order (LLVMBBlock (Fin 3)) where
  toList s := [.block 0, .block 1, .block 2, .unifiedExit, .pdtRoot].filter (· ∈ s)
  nodup s := List.Nodup.filter _ (by decide)
  mem_toList s x := by
    rw [List.mem_filter, decide_eq_true_eq]
    refine and_iff_right ?_
    revert x
    decide

theorem standard_exact_skip : skipTree.Correct skip ∧ (∀ b, skipTree.getNode b = true) ∧
    ∃ n, ∀ fuel ≥ n, ∃ deps, SCD.computePostDominators skip skipTree fuel = some deps ∧
      ∀ P b, P ≠ b →
        (P ∈ deps.dependencies b ↔ skip.ControlDependent [2] P b) ∧
        (.block b ∈
            (Legacy.computePostDominators skip skipTree skipOrder fuel true).controlDeps (.block P) ↔
          skip.ControlDependent [2] P b) ∧
        (P ∈ deps.dependencies b ↔ .block b ∈
          (Legacy.computePostDominators skip skipTree skipOrder fuel true).controlDeps (.block P)) :=
  ⟨skipTree_correct, fun _ => rfl, standard_exact skipTree_correct (fun _ => rfl) skipOrder⟩

end Cape.ControlDependence.Standard
