import Cape.ControlDependence.DOD
import Cape.Library.FinLiterals

/-!
# The algorithm `DODNTSCD`

For every predicate the nodes of `DOD` and, from the same colours, those of `NTSCD`.
`DODNTSCD.compute_union`: the results are put together.
-/

set_option autoImplicit false

namespace Cape.ControlDependence

open Cape.Library

/-- The pairs of two results. -/
def Result.union {N : Type} [DecidableEq N] (r s : Result N) : Result N :=
  ⟨fun n => r.CD n ∪ s.CD n, fun p => r.revCD p ∪ s.revCD p⟩

theorem Result.Converse.union {N : Type} [DecidableEq N] {r s : Result N} (hr : r.Converse)
    (hs : s.Converse) : (r.union s).Converse := by
  intro n p
  show p ∈ r.CD n ∪ s.CD n ↔ n ∈ r.revCD p ∪ s.revCD p
  rw [Finset.mem_union, Finset.mem_union, hr n p, hs n p]

namespace DODNTSCD

variable {G : CDGraph}

/-- `computeNTSCD`: the nodes on all maximal paths from just one of the two successors. -/
def computeNTSCD (onallpaths : AllMaxPath.Colors G) (p : G.Node) (r : Result G.Node) :
    Option (Result G.Node) :=
  match G.successors p with
  | [s1, s2] =>
      some (G.nodes.foldl (fun r n =>
        if xor (decide (n ∈ onallpaths s1)) (decide (n ∈ onallpaths s2)) then r.add n p else r) r)
  | _ => none

variable (G)

/-- `compute`. -/
def compute (fuel : Nat) : Option (Result G.Node) :=
  (AllMaxPath.compute G fuel).bind fun allpaths =>
    G.predicates.foldlM
      (fun r p => (DOD.computeDOD allpaths fuel p r).bind (computeNTSCD allpaths p)) .empty

variable {G}

/-- What is added for the nodes of a list that meet a test. -/
theorem mem_foldl_add_if (test : G.Node → Bool) (p : G.Node) (l : List G.Node) (r : Result G.Node)
    (n' p' : G.Node) :
    p' ∈ (l.foldl (fun r n => if test n then r.add n p else r) r).CD n' ↔
      (p' = p ∧ n' ∈ l ∧ test n' = true) ∨ p' ∈ r.CD n' := by
  rw [show l.foldl (fun r n => if test n then r.add n p else r) r =
    (l.filter test).foldl (fun r n => r.add n p) r from (List.foldl_filter ..).symm,
    DOD.mem_foldl_add, List.mem_filter]

theorem computeNTSCD_spec {colors : AllMaxPath.Colors G} {p : G.Node}
    (hp : (G.successors p).length = 2) (r : Result G.Node) :
    ∃ r', computeNTSCD colors p r = some r' ∧ (r.Converse → r'.Converse) ∧
      ∀ n p', p' ∈ r'.CD n ↔ (p' = p ∧ G.isMixed (fun s => n ∈ colors s) p = true) ∨ p' ∈ r.CD n := by
  obtain ⟨s1, s2, hs⟩ := List.length_eq_two.1 hp
  refine ⟨_, by simp only [computeNTSCD, hs]; rfl, fun hr => ?_, fun n p' => ?_⟩
  · refine Result.Converse.foldl (fun n _ r hr => ?_) hr
    split
    · exact hr.add n p
    · exact hr
  · rw [mem_foldl_add_if fun n => xor (decide (n ∈ colors s1)) (decide (n ∈ colors s2))]
    have htest : xor (decide (n ∈ colors s1)) (decide (n ∈ colors s2)) =
        G.isMixed (fun s => n ∈ colors s) p := by
      by_cases h1 : n ∈ colors s1
      · by_cases h2 : n ∈ colors s2
        · simp [CDGraph.isMixed, hs, h1, h2]
        · simp [CDGraph.isMixed, hs, h1, h2]
      · by_cases h2 : n ∈ colors s2
        · simp [CDGraph.isMixed, hs, h1, h2]
        · simp [CDGraph.isMixed, hs, h1, h2]
    rw [htest]
    simp

theorem converse_compute {fuel : Nat} {r : Result G.Node} (h : compute G fuel = some r) :
    r.Converse := by
  obtain ⟨allpaths, -, hfold⟩ := Option.bind_eq_some_iff.1 h
  refine Result.foldlM_keeps (fun p _ r r' hr h => ?_) Result.converse_empty hfold
  obtain ⟨r₁, hDOD, hNTSCD⟩ := Option.bind_eq_some_iff.1 h
  have hr₁ := DOD.converse_computeDOD hr hDOD
  rw [computeNTSCD] at hNTSCD
  split at hNTSCD
  · obtain rfl := Option.some.inj hNTSCD
    refine Result.Converse.foldl (fun n _ r hr => ?_) hr₁
    split
    · exact hr.add n p
    · exact hr
  · cases hNTSCD

/-- The predicates of a list bring both kinds of dependencies, and nothing else. -/
theorem foldlM_union (colors : AllMaxPath.Colors G) (fuel : Nat) {l : List G.Node}
    (hl : ∀ p ∈ l, (G.successors p).length = 2) {r rD : Result G.Node} {C : G.Node → G.Node → Prop}
    (hr : ∀ n p, p ∈ r.CD n ↔ p ∈ rD.CD n ∨ C n p) :
    match l.foldlM (fun r p => DOD.computeDOD colors fuel p r) rD with
    | none => l.foldlM (fun r p => (DOD.computeDOD colors fuel p r).bind (computeNTSCD colors p)) r =
        none
    | some rD' => ∃ r',
        l.foldlM (fun r p => (DOD.computeDOD colors fuel p r).bind (computeNTSCD colors p)) r =
          some r' ∧
        ∀ n p, p ∈ r'.CD n ↔ p ∈ rD'.CD n ∨ C n p ∨
          (p ∈ l ∧ G.isMixed (fun s => n ∈ colors s) p = true) := by
  induction l generalizing r rD C with
  | nil => exact ⟨r, rfl, fun n p => by simp [hr]⟩
  | cons p l ih =>
      obtain ⟨hp, hl⟩ := List.forall_mem_cons.1 hl
      simp only [List.foldlM_cons]
      simp only [DOD.computeDOD]
      -- both runs give up where the search for the dependents does
      cases hdep : DOD.dependents colors p fuel with
      | none => rfl
      | some deps =>
          obtain ⟨r₁, hr₁, -, hmem₁⟩ :=
            computeNTSCD_spec hp (deps.foldl (fun r n => r.add n p) r)
          have hnext : ∀ n q, q ∈ r₁.CD n ↔ q ∈ (deps.foldl (fun r n => r.add n p) rD).CD n ∨
              C n q ∨ (q = p ∧ G.isMixed (fun s => n ∈ colors s) p = true) := by
            intro n q
            rw [hmem₁, DOD.mem_foldl_add, DOD.mem_foldl_add, hr]
            tauto
          have hrest := ih hl hnext
          simp only [Option.map_some, Option.bind_some, Option.bind_eq_bind, hr₁]
          simp only [DOD.computeDOD] at hrest
          split
          · next hnone =>
              rw [hnone] at hrest
              exact hrest
          · next rD' hsome =>
              rw [hsome] at hrest
              obtain ⟨r', hr', hmem⟩ := hrest
              refine ⟨r', hr', fun n q => ?_⟩
              rw [hmem, List.mem_cons]
              constructor
              · rintro (hD | (hC | ⟨rfl, hmixed⟩) | ⟨hq, hmixed⟩)
                · exact Or.inl hD
                · exact Or.inr (Or.inl hC)
                · exact Or.inr (Or.inr ⟨Or.inl rfl, hmixed⟩)
                · exact Or.inr (Or.inr ⟨Or.inr hq, hmixed⟩)
              · rintro (hD | hC | ⟨rfl | hq, hmixed⟩)
                · exact Or.inl hD
                · exact Or.inr (Or.inl (Or.inl hC))
                · exact Or.inr (Or.inl (Or.inr ⟨rfl, hmixed⟩))
                · exact Or.inr (Or.inr ⟨hq, hmixed⟩)

/-- With two successors for every predicate no counter overflows. -/
theorem length_successors_lt (h : ∀ p ∈ G.predicates, (G.successors p).length = 2) (n : G.Node) :
    (G.successors n).length < 2 ^ 16 := by
  by_cases hn : n ∈ G.predicates
  · rw [h n hn]
    decide
  · have := mt (G.mem_predicates n).2 hn
    omega

/-- **The combined algorithm gives what its parts give together**, and ends when `DOD` does. -/
theorem compute_union (G : CDGraph) (h : ∀ p ∈ G.predicates, (G.successors p).length = 2)
    (extra : Nat) : ∃ rN, NTSCD.compute G (G.size + 2 + extra) = some rN ∧
      compute G (G.size + 2 + extra) =
        (DOD.compute G (G.size + 2 + extra)).map fun rD => rD.union rN := by
  have hdeg := length_successors_lt h
  have hfuel : G.size + 2 ≤ G.size + 2 + extra := Nat.le_add_right _ _
  obtain ⟨rN, hN, hmemN⟩ := NTSCD.compute_spec hdeg hfuel
  obtain ⟨colors, hcolors, hmem⟩ := AllMaxPath.compute_spec hdeg hfuel
  refine ⟨rN, hN, ?_⟩
  have hstart : ∀ n p, p ∈ (Result.empty : Result G.Node).CD n ↔
      p ∈ (Result.empty : Result G.Node).CD n ∨ False := by simp
  have hfold := foldlM_union colors (G.size + 2 + extra) h hstart
  cases hD : DOD.compute G (G.size + 2 + extra) with
  | none =>
      have hD' := hD
      rw [DOD.compute] at hD'
      rw [hcolors, Option.bind_some] at hD'
      rw [hD'] at hfold
      rw [compute]
      rw [hcolors, Option.bind_some]
      exact hfold
  | some rD =>
      have hD' := hD
      rw [DOD.compute] at hD'
      rw [hcolors, Option.bind_some] at hD'
      rw [hD'] at hfold
      obtain ⟨r, hr, hmemr⟩ := hfold
      have hcompute : compute G (G.size + 2 + extra) = some r := by
        rw [compute]
        rw [hcolors, Option.bind_some]
        exact hr
      rw [hcompute]
      -- both results are pairs of converse relations, so one of the two is enough
      refine congrArg some ((converse_compute hcompute).ext
        ((DOD.converse_compute hD).union (NTSCD.converse_compute hN)) fun n p => ?_)
      have hmixed : G.isMixed (fun s => decide (n ∈ colors s)) p = true ↔
          (∃ s ∈ G.successors p, Countdown.Counted G.successors n s) ∧
            ∃ s ∈ G.successors p, ¬ Countdown.Counted G.successors n s :=
        CDGraph.isMixed_iff (fun s => by rw [decide_eq_true_iff, hmem]) p
      show _ ↔ p ∈ rD.CD n ∪ rN.CD n
      rw [hmemr, Finset.mem_union, hmemN, hmixed]
      simp

/-- The node 0 enters a loop of two nodes at the one or at the other. -/
def twoWays : CDGraph :=
  .ofSuccessors 3 ![[1, 2], [2], [1]] (by decide)

theorem compute_union_twoWays : ∃ rN, NTSCD.compute twoWays 5 = some rN ∧
    compute twoWays 5 = (DOD.compute twoWays 5).map fun rD => rD.union rN :=
  compute_union twoWays (by decide) 0

end DODNTSCD

end Cape.ControlDependence
