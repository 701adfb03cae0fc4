import Cape.ControlDependence.PostDominators
import Cape.Library.FallibleLoop
import Mathlib.Data.Finset.Lattice.Fold

/-!
# Standard control dependence over the tree

`SCD::computePostDominators` asks for the post-dominance frontier of each block in the order of the
function. `calculate` goes down the tree; the frontiers found stay in one map and are only added to.
`dependsOn_iff`: a block depends on exactly the blocks that it is control dependent on.
-/

set_option autoImplicit false

namespace Cape.ControlDependence.Standard

open Cape.Library

variable {B : Type} [DecidableEq B]

/-- `DomSetMapType`. -/
abbrev Frontiers (B : Type) : Type := Option B → Finset B

/-- `dependencies` and `dependentBlocks` of `SCD`. -/
structure Dependencies (B : Type) where
  dependencies : B → Finset B
  dependentBlocks : B → Finset B

namespace SCD

variable (F : Function B) (T : PostDominatorTree B)

/-- A predecessor that the node does not immediately dominate goes into its set. -/
def insertLocal (Node : Option B) (S : Finset B) (P : B) : Finset B :=
  if T.getNode P ∧ T.getIDom P ≠ some Node then insert P S else S

/-- DFlocal. -/
def local' (Node : Option B) (S : Finset B) : Finset B :=
  match Node with
  | none => S
  | some BB => (F.predecessors BB).foldl (insertLocal T Node) S

/-- What a child's frontier adds. -/
def insertUp (Node : Option B) (S ChildDF : Finset B) : Finset B :=
  S ∪ ChildDF.filter fun cdfi => ¬ (T.getNode cdfi ∧ T.properlyDominates Node (some cdfi))

/-- One child: its frontier is computed, then added to that of the node. -/
def visitChild (calculate : Option B → Frontiers B → Option (Frontiers B)) (Node : Option B)
    (frontiers : Frontiers B) (IDominee : Option B) : Option (Frontiers B) := do
  let frontiers ← calculate IDominee frontiers
  some (Function.update frontiers Node
    (insertUp T Node (frontiers Node) (frontiers IDominee)))

/-- `PostDominanceFrontiers::calculate`. -/
def calculate : Nat → Option B → Frontiers B → Option (Frontiers B)
  | 0, _, _ => none
  | fuel + 1, Node, frontiers =>
      if T.getRoots.isEmpty then some frontiers
      else
        (T.children Node).foldlM (visitChild T (calculate fuel) Node)
          (Function.update frontiers Node (local' F T Node (frontiers Node)))

/-- `b` depends on all of its frontier. -/
def addDependencies (deps : Dependencies B) (b : B) (pdfrontiers : Finset B) : Dependencies B where
  dependencies := Function.update deps.dependencies b (deps.dependencies b ∪ pdfrontiers)
  dependentBlocks := fun pdf =>
    if pdf ∈ pdfrontiers then insert b (deps.dependentBlocks pdf) else deps.dependentBlocks pdf

/-- One block of the function: it has a node, by an assertion. -/
def processBlock (fuel : Nat) (s : Frontiers B × Dependencies B) (b : B) :
    Option (Frontiers B × Dependencies B) :=
  if T.getNode b then do
    let frontiers ← calculate F T fuel (some b) s.1
    some (frontiers, addDependencies s.2 b (frontiers (some b)))
  else none

/-- `SCD::computePostDominators`. -/
def computePostDominators (fuel : Nat) : Option (Dependencies B) :=
  (F.blocks.foldlM (processBlock F T fuel)
    (fun _ => ∅, ⟨fun _ => ∅, fun _ => ∅⟩)).map (·.2)

variable {F T}

/-! ## One node of the tree -/

/-- The frontiers only hold what belongs there. -/
def Sound (F : Function B) (T : PostDominatorTree B) (fr : Frontiers B) : Prop :=
  ∀ n p, p ∈ fr n → Frontier (F.Backward T.getRoots) none n (some p)

/-- The frontier of the node is all there. -/
def Complete (F : Function B) (T : PostDominatorTree B) (n : Option B) (fr : Frontiers B) : Prop :=
  ∀ p, Frontier (F.Backward T.getRoots) none n (some p) → p ∈ fr n

omit [DecidableEq B] in
theorem Complete.mono {n : Option B} {fr fr' : Frontiers B} (hle : fr ≤ fr')
    (h : Complete F T n fr) : Complete F T n fr' :=
  fun p hp => hle n (h p hp)

theorem Sound.update {n : Option B} {fr : Frontiers B} {S : Finset B} (h : Sound F T fr)
    (hS : ∀ p ∈ S, Frontier (F.Backward T.getRoots) none n (some p)) :
    Sound F T (Function.update fr n S) := by
  intro m p hp
  by_cases hm : m = n
  · subst hm
    rw [Function.update_self] at hp
    exact hS p hp
  · rw [Function.update_of_ne hm] at hp
    exact h m p hp

theorem mem_foldl_insertLocal {n : Option B} {p : B} (l : List B) : ∀ S : Finset B,
    p ∈ l.foldl (insertLocal T n) S ↔
      p ∈ S ∨ (p ∈ l ∧ T.getNode p = true ∧ T.getIDom p ≠ some n) := by
  induction l with
  | nil => intro S; simp
  | cons q l ih =>
      intro S
      rw [List.foldl_cons, ih, insertLocal, List.mem_cons]
      split
      · next hq =>
          rw [Finset.mem_insert]
          constructor
          · rintro ((rfl | hp) | hp)
            · exact Or.inr ⟨Or.inl rfl, hq⟩
            · exact Or.inl hp
            · exact Or.inr ⟨Or.inr hp.1, hp.2⟩
          · rintro (hp | ⟨rfl | hp, hq'⟩)
            · exact Or.inl (Or.inr hp)
            · exact Or.inl (Or.inl rfl)
            · exact Or.inr ⟨hp, hq'⟩
      · next hq =>
          refine or_congr_right ⟨fun hp => ⟨Or.inr hp.1, hp.2⟩, ?_⟩
          rintro ⟨rfl | hp, hq'⟩
          · exact absurd hq' hq
          · exact ⟨hp, hq'⟩

section

variable (hT : T.Correct F) (hnode : ∀ b, T.getNode b = true)
include hT hnode

omit hT in
theorem mem_local {b p : B} {S : Finset B} : p ∈ local' F T (some b) S ↔
    p ∈ S ∨ (b ∈ F.successors p ∧ T.idomBB p ≠ some b) := by
  show p ∈ (F.predecessors b).foldl (insertLocal T (some b)) S ↔ _
  rw [mem_foldl_insertLocal, Function.mem_predecessors, Ne, PostDominatorTree.getIDom_eq_some]
  simp only [hnode, true_and]

theorem mem_insertUp {b p : B} {S S' : Finset B} : p ∈ insertUp T (some b) S S' ↔
    p ∈ S ∨ (p ∈ S' ∧ ¬ StrictlyDominates (F.Backward T.getRoots) none (some b) (some p)) := by
  rw [insertUp, Finset.mem_union, Finset.mem_filter, Function.strictlyDominates_some,
    ← hT.properlyDominates_iff b p (hnode b) (hnode p)]
  simp only [hnode, true_and]

/-- What one child brings, when the call for it does what it should. -/
theorem exists_visitChild {rec : Option B → Frontiers B → Option (Frontiers B)} {b c : B}
    (hc : T.idomBB c = some b)
    (hrec : ∀ fr, Sound F T fr → ∃ fr', rec (some c) fr = some fr' ∧ Sound F T fr' ∧ fr ≤ fr' ∧
      Complete F T (some c) fr') {fr : Frontiers B} (hfr : Sound F T fr) :
    ∃ fr', visitChild T rec (some b) fr (some c) = some fr' ∧ Sound F T fr' ∧ fr ≤ fr' ∧
      ∀ p, Frontier (F.Backward T.getRoots) none (some c) (some p) →
        ¬ StrictlyDominates (F.Backward T.getRoots) none (some b) (some p) →
          p ∈ fr' (some b) := by
  have himm := hT.immediateDominator hnode
  obtain ⟨fr₁, hfr₁, hsound, hle, hcomplete⟩ := hrec fr hfr
  refine ⟨_, by rw [visitChild, hfr₁]; rfl, hsound.update fun p hp => ?_, hle.trans ?_,
    fun p hp hnot => ?_⟩
  · obtain hp | ⟨hp, hnot⟩ := (mem_insertUp hT hnode).1 hp
    · exact hsound _ p hp
    · have hup : T.up (some c) = some (some b) := congrArg some hc
      exact himm.frontier_of_child (hT.fromRoot hnode) hup (hsound _ p hp) hnot
  · rw [le_update_self_iff]
    exact fun p hp => (mem_insertUp hT hnode).2 (Or.inl hp)
  · rw [Function.update_self, mem_insertUp hT hnode]
    exact Or.inr ⟨hcomplete p hp, hnot⟩

variable [Fintype B]

omit hT hnode in
open Classical in
/-- The nodes below a node. -/
noncomputable def below (F : Function B) (T : PostDominatorTree B) (n : Option B) :
    Finset (Option B) :=
  Finset.univ.filter fun m => StrictlyDominates (F.Backward T.getRoots) none n m

omit hT hnode [DecidableEq B] in
theorem mem_below {n m : Option B} : m ∈ below F T n ↔
    StrictlyDominates (F.Backward T.getRoots) none n m := by
  simp only [below, Finset.mem_filter, Finset.mem_univ, true_and]

omit [DecidableEq B] in
theorem card_below_child {b c : B} (hc : T.idomBB c = some b) :
    (below F T (some c)).card < (below F T (some b)).card := by
  have himm := hT.immediateDominator hnode
  have hbc := himm.strict (some c) (some b) (hT.fromRoot hnode _) (congrArg some hc)
  refine Finset.card_lt_card ⟨fun m hm => ?_, fun hsub => ?_⟩
  · exact mem_below.2 (hbc.trans (hT.fromRoot hnode m) (mem_below.1 hm))
  · -- the child is below its parent, but not below itself
    exact (mem_below.1 (hsub (mem_below.2 hbc))).1 rfl

/-- **One call**: it ends; it adds nothing wrong, and all of the frontier of its node. -/
theorem exists_calculate : ∀ (fuel : Nat) (b : B) (fr : Frontiers B),
    (below F T (some b)).card < fuel → Sound F T fr →
      ∃ fr', calculate F T fuel (some b) fr = some fr' ∧ Sound F T fr' ∧ fr ≤ fr' ∧
        Complete F T (some b) fr' := by
  have himm := hT.immediateDominator hnode
  have hall := hT.fromRoot hnode
  intro fuel
  induction fuel with
  | zero => exact fun b fr hlt => absurd hlt (Nat.not_lt_zero _)
  | succ fuel ih =>
      intro b fr hlt hfr
      have hroots : ¬ T.getRoots.isEmpty = true := by
        obtain ⟨e, he, -⟩ := (hT.getNode_iff b).1 (hnode b)
        exact fun h => List.ne_nil_of_mem he (List.isEmpty_iff.1 h)
      -- first the predecessors of the block, then what its children pass up
      have hlocal : Sound F T (Function.update fr (some b) (local' F T (some b) (fr (some b)))) := by
        refine hfr.update fun p hp => ?_
        obtain hp | ⟨hedge, hne⟩ := (mem_local hnode).1 hp
        · exact hfr _ p hp
        · exact himm.frontier_of_edge hall hedge fun h => hne (Option.some.inj h)
      have hchild : ∀ n ∈ T.children (some b), ∀ fr, Sound F T fr →
          ∃ fr', visitChild T (calculate F T fuel) (some b) fr n = some fr' ∧ Sound F T fr' ∧
            fr ≤ fr' ∧ ∀ p, Frontier (F.Backward T.getRoots) none n (some p) →
              ¬ StrictlyDominates (F.Backward T.getRoots) none (some b) (some p) →
                p ∈ fr' (some b) := by
        intro n hn fr hfr
        obtain ⟨c, rfl, -, hc⟩ := (hT.mem_children b n).1 hn
        have hcard := card_below_child hT hnode hc
        exact exists_visitChild hT hnode hc (fun fr hfr => ih c fr (by omega) hfr) hfr
      obtain ⟨fr', hfr', hsound, hle, hdone⟩ := FallibleLoop.exists_each_done (I := Sound F T)
        (fun fr => le_refl fr) (fun h h' => le_trans h h')
        (fun hle hP p hp hnot => hle _ (hP p hp hnot)) hchild hlocal
      have hbefore : local' F T (some b) (fr (some b)) ⊆ fr' (some b) := by
        have := hle (some b)
        rwa [Function.update_self] at this
      refine ⟨fr', ?_, hsound, le_trans ?_ hle, fun p hp => ?_⟩
      · rw [calculate, if_neg hroots]
        exact hfr'
      · rw [le_update_self_iff]
        exact fun p hp => (mem_local hnode).2 (Or.inl hp)
      · obtain ⟨hedge, hne⟩ | ⟨n, hn, hnp⟩ := himm.frontier_cases hall hp
        · exact hbefore ((mem_local hnode).2 (Or.inr ⟨hedge, fun h => hne (congrArg some h)⟩))
        · cases n with
          | none => cases hn
          | some c =>
              have hmem := (hT.mem_children b (some c)).2 ⟨c, rfl, hnode c, Option.some.inj hn⟩
              exact hdone _ hmem p hnp hp.2

/-! ## The whole function -/

omit hT hnode [Fintype B] in
theorem mem_addDependencies {deps : Dependencies B} {b c p : B} {pdf : Finset B} :
    p ∈ (addDependencies deps b pdf).dependencies c ↔
      p ∈ deps.dependencies c ∨ (c = b ∧ p ∈ pdf) := by
  by_cases hc : c = b
  · subst hc
    simp [addDependencies]
  · simp [addDependencies, hc]

omit hT hnode [Fintype B] in
theorem mem_dependentBlocks {deps : Dependencies B} {b c p : B} {pdf : Finset B} :
    c ∈ (addDependencies deps b pdf).dependentBlocks p ↔
      c ∈ deps.dependentBlocks p ∨ (c = b ∧ p ∈ pdf) := by
  show c ∈ (if p ∈ pdf then _ else _) ↔ _
  split
  · next hp => simp [hp, or_comm]
  · next hp => simp [hp]

/-- **`SCD` makes a block depend on exactly the blocks that it is control dependent on.** -/
theorem computePostDominators_exact {fuel : Nat} (hfuel : Fintype.card (Option B) < fuel) :
    ∃ deps, computePostDominators F T fuel = some deps ∧
      (∀ p b, p ∈ deps.dependencies b ↔ F.ControlDependent T.getRoots p b) ∧
      ∀ p b, b ∈ deps.dependentBlocks p ↔ F.ControlDependent T.getRoots p b := by
  -- nothing wrong is recorded, and both maps have the same pairs
  let I (s : Frontiers B × Dependencies B) : Prop := Sound F T s.1 ∧
    (∀ p b, p ∈ s.2.dependencies b → F.ControlDependent T.getRoots p b) ∧
    ∀ p b, b ∈ s.2.dependentBlocks p ↔ p ∈ s.2.dependencies b
  let Done (b : B) (s : Frontiers B × Dependencies B) : Prop :=
    ∀ p, F.ControlDependent T.getRoots p b → p ∈ s.2.dependencies b
  have hblock : ∀ b ∈ F.blocks, ∀ s, I s →
      ∃ s', processBlock F T fuel s b = some s' ∧ I s' ∧
        s.2.dependencies ≤ s'.2.dependencies ∧ Done b s' := by
    rintro b - ⟨fr, deps⟩ ⟨hfr, hdeps, hsame⟩
    have hcard : (below F T (some b)).card < fuel := (Finset.card_le_univ _).trans_lt hfuel
    obtain ⟨fr', hfr', hsound, -, hcomplete⟩ := exists_calculate hT hnode _ b fr hcard hfr
    have hexact : ∀ p, p ∈ fr' (some b) ↔ F.ControlDependent T.getRoots p b := by
      intro p
      rw [← Function.frontier_some]
      exact ⟨hsound _ p, hcomplete p⟩
    refine ⟨(fr', addDependencies deps b (fr' (some b))), ?_, ⟨hsound, fun p c hp => ?_,
      fun p c => ?_⟩, fun c p hp => ?_, fun p hp => ?_⟩
    · rw [processBlock, if_pos (hnode b), hfr']
      rfl
    · obtain hp | ⟨rfl, hp⟩ := mem_addDependencies.1 hp
      · exact hdeps p c hp
      · exact (hexact p).1 hp
    · rw [mem_addDependencies, mem_dependentBlocks, hsame]
    · exact mem_addDependencies.2 (Or.inl hp)
    · exact mem_addDependencies.2 (Or.inr ⟨rfl, (hexact p).2 hp⟩)
  have hstart : I (fun _ => ∅, ⟨fun _ => ∅, fun _ => ∅⟩) :=
    ⟨fun n p hp => absurd hp (Finset.notMem_empty p),
      fun p b hp => absurd hp (Finset.notMem_empty p),
      fun p b => iff_of_false (Finset.notMem_empty b) (Finset.notMem_empty p)⟩
  obtain ⟨⟨fr, deps⟩, hrun, hI, -, hdone⟩ := FallibleLoop.exists_each_done (P := Done)
    (r := fun s t : Frontiers B × Dependencies B => s.2.dependencies ≤ t.2.dependencies)
    (fun s => le_refl _) (fun h h' => le_trans h h') (fun hle hP p hp => hle _ (hP p hp))
    hblock hstart
  have hexact : ∀ p b, p ∈ deps.dependencies b ↔ F.ControlDependent T.getRoots p b :=
    fun p b => ⟨hI.2.1 p b, hdone b (F.mem_blocks b) p⟩
  refine ⟨deps, ?_, hexact, fun p b => ?_⟩
  · rw [computePostDominators, hrun]
    rfl
  · rw [hI.2.2 p b]
    exact hexact p b

end

end SCD

end Cape.ControlDependence.Standard
