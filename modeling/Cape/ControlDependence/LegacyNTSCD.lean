import Cape.ControlDependence.GraphBuilder
import Cape.Library.Recount
import Cape.Library.UpdatedSets

/-!
# The legacy `NTSCD`

For every block the blocks turn red from which all maximal paths contain it, by a recursive visit of
predecessors that counts down successors. `computeIntraprocDependencies_exact`: on the graph of
`buildFunction` the result is the relation it is to be. Since every block reaches the exit, the visit
never comes back to its first block with nothing left to count.
-/

set_option autoImplicit false

namespace Cape.ControlDependence.Legacy

open Cape.Library

/-- `controlDependency` and `revControlDependency`. -/
structure Dependencies where
  controlDependency : Nat → Finset Nat
  revControlDependency : Nat → Finset Nat

namespace Dependencies

def empty : Dependencies := ⟨fun _ => ∅, fun _ => ∅⟩

/-- `a` is control dependent on `b`. -/
def addControlDependence (deps : Dependencies) (a b : Nat) : Dependencies where
  controlDependency := Function.update deps.controlDependency b (insert a (deps.controlDependency b))
  revControlDependency :=
    Function.update deps.revControlDependency a (insert b (deps.revControlDependency a))

/-- `node` depends on the blocks that pass the test. -/
def addAll (test : Nat → Bool) (node : Nat) (deps : Dependencies) (l : List Nat) : Dependencies :=
  l.foldl (fun deps node1 => if test node1 then deps.addControlDependence node node1 else deps) deps

end Dependencies

section

variable {B I : Type} (O : Order Nat) (g : Graph B I)

/-- `successors()` in the order of the loops over it. -/
def Graph.next (x : Nat) : List Nat := O.toList (g.successors x)

def Graph.prev (x : Nat) : List Nat := O.toList (g.predecessors x)

/-- The counters are set to the numbers of successors, and the first block is visited. -/
def visitInitialNode (node fuel : Nat) : Option (Recount.Info Nat) :=
  Recount.visitAll (g.next O) (g.prev O) node fuel

def hasRedAndNonRedSuccessor (nodeInfo : Recount.Info Nat) (node : Nat) : Bool :=
  let redCounter := (g.next O node).countP nodeInfo.red
  decide (0 < redCounter) && decide (redCounter < (g.successors node).card)

/-- The blocks that `node` is found to depend on. -/
def computeNode (fuel : Nat) (deps : Dependencies) (node : Nat) : Option Dependencies :=
  (visitInitialNode O g node fuel).map fun nodeInfo =>
    deps.addAll (hasRedAndNonRedSuccessor O g nodeInfo) node (O.toList g.nodes)

/-- `none` when the fuel of a visit is spent. -/
def computeIntraprocDependencies (fuel : Nat) : Option Dependencies :=
  (O.toList g.nodes).foldlM (computeNode O g fuel) .empty

/-- **Non-termination sensitive control dependence** of `n` on `p`. -/
def Graph.NTSCD (p n : Nat) : Prop :=
  (∃ s ∈ g.successors p, OnAllPaths (g.next O) n s) ∧
    ∃ s ∈ g.successors p, ¬ OnAllPaths (g.next O) n s

variable {O g}

@[simp] theorem Graph.mem_next {x y : Nat} : y ∈ g.next O x ↔ y ∈ g.successors x :=
  O.mem_toList _ _

@[simp] theorem Graph.length_next (x : Nat) : (g.next O x).length = (g.successors x).card := by
  rw [Graph.next, ← List.toFinset_card_of_nodup (O.nodup _)]
  refine congrArg Finset.card (Finset.ext fun y => ?_)
  rw [List.mem_toFinset, O.mem_toList]

/-- A red and an uncoloured successor. -/
theorem hasRedAndNonRedSuccessor_iff {nodeInfo : Recount.Info Nat} {node : Nat} :
    hasRedAndNonRedSuccessor O g nodeInfo node = true ↔
      (∃ s ∈ g.successors node, nodeInfo.red s = true) ∧
        ∃ s ∈ g.successors node, ¬ nodeInfo.red s = true := by
  have hsome : 0 < (g.next O node).countP nodeInfo.red ↔
      ∃ s ∈ g.successors node, nodeInfo.red s = true := by
    simp [List.countP_pos_iff]
  have hall : (g.next O node).countP nodeInfo.red < (g.successors node).card ↔
      ∃ s ∈ g.successors node, ¬ nodeInfo.red s = true := by
    rw [← Graph.length_next (O := O), List.countP_le_length.lt_iff_ne, Ne, List.countP_eq_length]
    simp
  rw [hasRedAndNonRedSuccessor, Bool.and_eq_true, decide_eq_true_eq, decide_eq_true_eq, hsome, hall]

theorem mem_addControlDependence {deps : Dependencies} {a b n p : Nat} :
    n ∈ (deps.addControlDependence a b).controlDependency p ↔
      n ∈ deps.controlDependency p ∨ (n = a ∧ p = b) := by
  rw [or_comm, and_comm]
  exact mem_update_insert

theorem mem_rev_addControlDependence {deps : Dependencies} {a b n p : Nat} :
    p ∈ (deps.addControlDependence a b).revControlDependency n ↔
      p ∈ deps.revControlDependency n ∨ (n = a ∧ p = b) := by
  rw [or_comm]
  exact mem_update_insert

/-- What the loop over the blocks adds for one block. -/
theorem mem_addAll {test : Nat → Bool} {node n p : Nat} (l : List Nat) : ∀ deps : Dependencies,
    (n ∈ (deps.addAll test node l).controlDependency p ↔
        n ∈ deps.controlDependency p ∨ (n = node ∧ p ∈ l ∧ test p = true)) ∧
      (p ∈ (deps.addAll test node l).revControlDependency n ↔
        p ∈ deps.revControlDependency n ∨ (n = node ∧ p ∈ l ∧ test p = true)) := by
  induction l with
  | nil => intro deps; simp [Dependencies.addAll]
  | cons q l ih =>
      intro deps
      have hcons : deps.addAll test node (q :: l) =
          (if test q then deps.addControlDependence node q else deps).addAll test node l := rfl
      have hq : ∀ P : Prop, ((P ∨ (n = node ∧ p = q ∧ test p = true)) ∨
          (n = node ∧ p ∈ l ∧ test p = true)) ↔ (P ∨ (n = node ∧ p ∈ q :: l ∧ test p = true)) := by
        intro P
        rw [List.mem_cons]
        tauto
      rw [hcons, (ih _).1, (ih _).2, ← hq, ← hq]
      by_cases ht : test q = true
      · -- the test is that of `q`
        have hsame : (n = node ∧ p = q ∧ test p = true) ↔ n = node ∧ p = q :=
          and_congr_right fun _ => and_iff_left_of_imp fun hp => hp ▸ ht
        rw [if_pos ht, mem_addControlDependence, mem_rev_addControlDependence, hsame]
        exact ⟨Iff.rfl, Iff.rfl⟩
      · have hnone : ¬ (n = node ∧ p = q ∧ test p = true) := by
          rintro ⟨-, rfl, ht'⟩
          exact ht ht'
        rw [if_neg ht, or_iff_left hnone, or_iff_left hnone]
        exact ⟨Iff.rfl, Iff.rfl⟩

/-- When every block reaches the exit, no visit comes back to its first block in vain. -/
theorem recountGraph (hg : g.WellFormed) {n : Nat} (hn : g.Reach n Graph.exit) :
    Recount.Graph (g.next O) (g.prev O) n where
  nodup_next x := O.nodup _
  nodup_prev x := O.nodup _
  mem_prev x y := by
    rw [Graph.prev, Graph.next, O.mem_toList, O.mem_toList, hg.converse]
  leaves := by
    refine Recount.leaves_of_reach (e := Graph.exit) ?_ ?_
    · refine Relation.ReflTransGen.mono (fun x y hxy => ?_) _ _ hn
      exact Graph.mem_next.2 hxy
    · refine List.eq_nil_iff_forall_not_mem.2 fun y hy => ?_
      rw [Graph.mem_next, hg.exit] at hy
      exact Finset.notMem_empty y hy

/-- **The analysis of a graph in which every block reaches the exit.** -/
theorem computeIntraprocDependencies_spec (hg : g.WellFormed)
    (hexit : ∀ x ∈ g.nodes, g.Reach x Graph.exit) {fuel : Nat} (hfuel : g.size < fuel) :
    ∃ deps, computeIntraprocDependencies O g fuel = some deps ∧ ∀ n ∈ g.nodes, ∀ p ∈ g.nodes,
      (n ∈ deps.controlDependency p ↔ g.NTSCD O p n) ∧
      (p ∈ deps.revControlDependency n ↔ g.NTSCD O p n) := by
  have hV : ∀ x ∈ g.nodes, ∀ y ∈ g.prev O x, y ∈ g.nodes := by
    intro x _ y hy
    rw [Graph.prev, O.mem_toList, hg.converse] at hy
    exact Finset.mem_range.2 (hg.closed y x hy).1
  have hnode : ∀ n ∈ g.nodes, ∀ deps, ∃ deps', computeNode O g fuel deps n = some deps' ∧
      ∀ m p, (m ∈ deps'.controlDependency p ↔ m ∈ deps.controlDependency p ∨
          (m = n ∧ p ∈ g.nodes ∧ g.NTSCD O p n)) ∧
        (p ∈ deps'.revControlDependency m ↔ p ∈ deps.revControlDependency m ∨
          (m = n ∧ p ∈ g.nodes ∧ g.NTSCD O p n)) := by
    intro n hn deps
    obtain ⟨nodeInfo, hrun, hred⟩ := Recount.exists_visitAll hV (recountGraph hg (hexit n hn)) hn
      ((Finset.card_range g.size).trans_lt hfuel)
    have htest : ∀ p, hasRedAndNonRedSuccessor O g nodeInfo p = true ↔ g.NTSCD O p n := by
      intro p
      rw [hasRedAndNonRedSuccessor_iff, Graph.NTSCD]
      simp only [hred, onAllPaths_iff]
    refine ⟨_, by rw [computeNode, visitInitialNode, hrun]; rfl, fun m p => ?_⟩
    obtain ⟨hmem, hrev⟩ := @mem_addAll (hasRedAndNonRedSuccessor O g nodeInfo) n m p
      (O.toList g.nodes) deps
    rw [O.mem_toList, htest] at hmem hrev
    exact ⟨hmem, hrev⟩
  -- the loop over the nodes has the dependencies on those that are done
  obtain ⟨deps, hrun, hdeps⟩ := FallibleLoop.exists_prefix (f := computeNode O g fuel)
    (l := O.toList g.nodes) (I := fun l deps => ∀ m p,
      (m ∈ deps.controlDependency p ↔ m ∈ l ∧ p ∈ g.nodes ∧ g.NTSCD O p m) ∧
      (p ∈ deps.revControlDependency m ↔ m ∈ l ∧ p ∈ g.nodes ∧ g.NTSCD O p m))
    (s := .empty) (by
      intro l₁ n l₂ hl deps hdeps
      have hn : n ∈ g.nodes := (O.mem_toList _ _).1 (hl ▸ List.mem_append_right l₁ List.mem_cons_self)
      obtain ⟨deps', hdeps', hmem⟩ := hnode n hn deps
      have hsnoc : ∀ m p, (m ∈ l₁ ∧ p ∈ g.nodes ∧ g.NTSCD O p m ∨
          m = n ∧ p ∈ g.nodes ∧ g.NTSCD O p n) ↔
          m ∈ l₁ ++ [n] ∧ p ∈ g.nodes ∧ g.NTSCD O p m := by
        intro m p
        rw [List.mem_append, List.mem_singleton, or_and_right]
        refine or_congr_right (and_congr_right fun hm => ?_)
        rw [hm]
      refine ⟨deps', hdeps', fun m p => ⟨?_, ?_⟩⟩
      · rw [(hmem m p).1, (hdeps m p).1, hsnoc]
      · rw [(hmem m p).2, (hdeps m p).2, hsnoc])
    (fun m p => ⟨iff_of_false (Finset.notMem_empty m) fun h => List.not_mem_nil h.1,
      iff_of_false (Finset.notMem_empty p) fun h => List.not_mem_nil h.1⟩)
  refine ⟨deps, hrun, fun n hn p hp => ?_⟩
  rw [(hdeps n p).1, (hdeps n p).2, O.mem_toList]
  exact ⟨by simp [hn, hp], by simp [hn, hp]⟩

end

/-- **The legacy analysis is exact** on every graph of `buildFunction` whose blocks the entry
reaches. -/
theorem computeIntraprocDependencies_exact {B I : Type} [DecidableEq B] [DecidableEq I]
    (F : LLVMFunction B I) (O : Order Nat) (recursively threads : Bool) :
    ∃ size, ∀ fuel ≥ size, ∃ g : Graph B I,
      buildFunction F O recursively threads fuel = some g ∧ ∃ e, g.entry = some e ∧
        ((∀ x ∈ g.nodes, g.Reach e x) →
          ∃ deps, computeIntraprocDependencies O g fuel = some deps ∧
            ∀ n ∈ g.nodes, ∀ p ∈ g.nodes,
              (n ∈ deps.controlDependency p ↔ g.NTSCD O p n) ∧
              (p ∈ deps.revControlDependency n ↔ g.NTSCD O p n)) := by
  refine ⟨(splitBlocks F recursively threads).size + 1, fun fuel hfuel => ?_⟩
  obtain ⟨g, hbuild, hg, hsize, e, he, hexit⟩ := exists_buildFunction F O recursively threads
    (Nat.le_of_succ_le hfuel)
  refine ⟨g, hbuild, e, he, fun hreach => ?_⟩
  exact computeIntraprocDependencies_spec hg (fun x hx => hexit x (hreach x hx)) (by omega)

end Cape.ControlDependence.Legacy
