import Cape.ControlDependence.CDGraph
import Cape.Library.Countdown
import Cape.Library.FinLiterals

/-!
# The algorithm `NTSCD`

For every node the nodes are coloured from which all maximal paths contain it, by counting down
successors. A predicate with a coloured and an uncoloured successor controls the node.

`NTSCD.compute_exact_iff`: when the result is the relation it is to be. A node to which all ways from
its successors come back is taken twice, and counted down twice in its predecessors
(`NTSCD.miscounts`).
-/

set_option autoImplicit false

namespace Cape.ControlDependence

open Cape.Library

variable (G : CDGraph)

/-- Some successor of the predicate is coloured and some is not. -/
def CDGraph.isMixed (colored : G.Node → Bool) (predicate : G.Node) : Bool :=
  (G.successors predicate).any colored && (G.successors predicate).any fun s => !colored s

variable {G}

theorem CDGraph.isMixed_iff {colored : G.Node → Bool} {C : G.Node → Prop}
    (h : ∀ n, colored n = true ↔ C n) (p : G.Node) : G.isMixed colored p = true ↔
      (∃ s ∈ G.successors p, C s) ∧ ∃ s ∈ G.successors p, ¬ C s := by
  simp [isMixed, ← h]

namespace NTSCD

variable (G)

/-- `compute` for one target. The counters are `unsigned short`. -/
def computeTarget (target : G.Node) (fuel : Nat) : Option (G.Node → Bool) :=
  Countdown.search G.successors G.predecessors 16 (fun _ => false) target fuel

/-- `compute`; `none` when the fuel of a search is spent. -/
def compute (fuel : Nat) : Option (Result G.Node) :=
  G.nodes.foldlM
    (fun r nd => (computeTarget G nd fuel).map fun colored =>
      r.addAll (G.isMixed colored) nd G.predicates)
    .empty

/-- A node is miscounted for `n`: it is counted as having `n` on all its maximal paths, and has not. -/
abbrev Miscounted (n x : G.Node) : Prop := Countdown.Miscounted G.successors n x

/-- A predicate with a successor that is miscounted for `n` has a successor with `n` on all maximal
paths exactly if it has one that has not and that is not miscounted. -/
def CountsRight : Prop :=
  ∀ n, ∀ p ∈ G.predicates, (∃ s ∈ G.successors p, Miscounted G n s) →
    ((∃ s ∈ G.successors p, OnAllPaths G.successors n s) ↔
      ∃ s ∈ G.successors p, ¬ OnAllPaths G.successors n s ∧ ¬ Miscounted G n s)

variable {G}

/-- Targets one after the other: the pairs of all of them are added. -/
theorem foldlM_addAll {color : G.Node → Option (G.Node → Bool)} {P : G.Node → G.Node → Prop}
    {l : List G.Node}
    (h : ∀ n ∈ l, ∃ m, color n = some m ∧ ∀ p, G.isMixed m p = true ↔ P n p)
    (r : Result G.Node) :
    ∃ r', l.foldlM (fun r nd => (color nd).map fun colored =>
        r.addAll (G.isMixed colored) nd G.predicates) r = some r' ∧
      ∀ n p, p ∈ r'.CD n ↔ (n ∈ l ∧ p ∈ G.predicates ∧ P n p) ∨ p ∈ r.CD n := by
  induction l generalizing r with
  | nil => exact ⟨r, rfl, fun n p => by simp⟩
  | cons a l ih =>
      obtain ⟨ha, hl⟩ := List.forall_mem_cons.1 h
      obtain ⟨m, hm, htest⟩ := ha
      obtain ⟨r', hr', hmem⟩ := ih hl (r.addAll (G.isMixed m) a G.predicates)
      refine ⟨r', ?_, fun n p => ?_⟩
      · rw [List.foldlM_cons, hm]
        exact hr'
      · rw [hmem, Result.mem_addAll, htest, List.mem_cons]
        constructor
        · rintro (⟨hn, hp⟩ | ⟨rfl, hp⟩ | hr)
          · exact Or.inl ⟨Or.inr hn, hp⟩
          · exact Or.inl ⟨Or.inl rfl, hp⟩
          · exact Or.inr hr
        · rintro (⟨rfl | hn, hp⟩ | hr)
          · exact Or.inr (Or.inl ⟨rfl, hp⟩)
          · exact Or.inl ⟨hn, hp⟩
          · exact Or.inr (Or.inr hr)

/-- The two maps are filled together. -/
theorem converse_compute {fuel : Nat} {r : Result G.Node} (h : compute G fuel = some r) :
    r.Converse := by
  refine Result.foldlM_keeps (P := Result.Converse) (fun n _ r r' hr h => ?_)
    Result.converse_empty h
  obtain ⟨colored, -, rfl⟩ := Option.map_eq_some_iff.1 h
  exact hr.addAll

/-- What the search for one target colours. -/
theorem computeTarget_spec (hdeg : ∀ n, (G.successors n).length < 2 ^ 16) (target : G.Node)
    {fuel : Nat} (hfuel : G.size + 2 ≤ fuel) :
    ∃ colored, computeTarget G target fuel = some colored ∧
      ∀ n, colored n = true ↔ Countdown.Counted G.successors target n :=
  Countdown.search_spec hdeg G.nodup_successors G.nodup_predecessors G.mem_predecessors target
    (by simpa using hfuel)

theorem compute_spec (hdeg : ∀ n, (G.successors n).length < 2 ^ 16) {fuel : Nat}
    (hfuel : G.size + 2 ≤ fuel) : ∃ r, compute G fuel = some r ∧ ∀ n p, p ∈ r.CD n ↔
      p ∈ G.predicates ∧ (∃ s ∈ G.successors p, Countdown.Counted G.successors n s) ∧
        ∃ s ∈ G.successors p, ¬ Countdown.Counted G.successors n s := by
  obtain ⟨r, hr, hmem⟩ := foldlM_addAll (l := G.nodes)
    (fun n _ => by
      obtain ⟨m, hm, hcolored⟩ := computeTarget_spec hdeg n hfuel
      exact ⟨m, hm, CDGraph.isMixed_iff hcolored⟩)
    .empty
  refine ⟨r, hr, fun n p => ?_⟩
  rw [hmem]
  simp

/-- Miscounted successors change nothing for a predicate just where `CountsRight` says so. -/
theorem mixed_iff {n p : G.Node} :
    ((∃ s ∈ G.successors p, Countdown.Counted G.successors n s) ∧
        (∃ s ∈ G.successors p, ¬ Countdown.Counted G.successors n s) ↔
      (∃ s ∈ G.successors p, G.Reaching n s) ∧ ∃ s ∈ G.successors p, ¬ G.Reaching n s) ↔
    ((∃ s ∈ G.successors p, Miscounted G n s) →
      ((∃ s ∈ G.successors p, G.Reaching n s) ↔
        ∃ s ∈ G.successors p, ¬ G.Reaching n s ∧ ¬ Miscounted G n s)) := by
  simp only [Countdown.counted_iff, not_or]
  by_cases hmis : ∃ s ∈ G.successors p, Miscounted G n s
  · obtain ⟨s, hs, hmis⟩ := hmis
    have hcounted : ∃ s ∈ G.successors p, G.Reaching n s ∨ Miscounted G n s := ⟨s, hs, Or.inr hmis⟩
    have hmissing : ∃ s ∈ G.successors p, ¬ G.Reaching n s := ⟨s, hs, hmis.not_reaching⟩
    have hsome : ∃ s ∈ G.successors p, Miscounted G n s := ⟨s, hs, hmis⟩
    simp only [hcounted, hmissing, hsome, true_and, and_true, forall_const]
    exact iff_comm
  · refine iff_of_true ?_ fun h => absurd h hmis
    push Not at hmis
    constructor
    · rintro ⟨⟨s, hs, hreach⟩, s', hs', hnot, -⟩
      exact ⟨⟨s, hs, hreach.resolve_right (hmis s hs)⟩, s', hs', hnot⟩
    · rintro ⟨⟨s, hs, hreach⟩, s', hs', hnot⟩
      exact ⟨⟨s, hs, Or.inl hreach⟩, s', hs', hnot, hmis s' hs'⟩

/-- **When `compute` is exact.** -/
theorem compute_exact_iff (G : CDGraph) (hdeg : ∀ n, (G.successors n).length < 2 ^ 16) :
    ∃ r, compute G (G.size + 2) = some r ∧
      ((∀ n p, p ∈ r.CD n ↔ G.NTSCD p n) ↔ CountsRight G) := by
  obtain ⟨r, hr, hmem⟩ := compute_spec hdeg (Nat.le_refl (G.size + 2))
  refine ⟨r, hr, ?_⟩
  have hexact : ∀ n p, (p ∈ r.CD n ↔ G.NTSCD p n) ↔ (p ∈ G.predicates →
      ((∃ s ∈ G.successors p, Miscounted G n s) →
        ((∃ s ∈ G.successors p, G.Reaching n s) ↔
          ∃ s ∈ G.successors p, ¬ G.Reaching n s ∧ ¬ Miscounted G n s))) := by
    intro n p
    by_cases hp : p ∈ G.predicates
    · rw [hmem, G.ntscd_iff, ← mixed_iff]
      simp only [hp, true_and, forall_const]
    · refine iff_of_true (iff_of_false (fun h => hp ((hmem n p).1 h).1) fun h => ?_)
        fun h => absurd h hp
      exact hp h.mem_predicates
  rw [CountsRight]
  simp only [onAllPaths_iff]
  exact forall_congr' fun n => (forall_congr' (hexact n)).trans Iff.rfl

/-- Node 3 goes to the node 1 or to the exit 2, node 1 to the endless loop 0 or to the exit. -/
def loopOrExit : CDGraph :=
  .ofSuccessors 4 ![[0], [0, 2], [], [1, 2]] (by decide)

/-- **A predicate too many**: node 0 is taken twice, so that node 1 counts as reaching it for sure,
and node 3 seems to decide between node 0 and the exit. -/
theorem miscounts : ∃ r, compute loopOrExit 6 = some r ∧
    ¬ ∀ n p, p ∈ r.CD n ↔ loopOrExit.NTSCD p n := by
  have hcode : ((compute loopOrExit 6).any fun r =>
      decide ((⟨3, by decide⟩ : loopOrExit.Node) ∈ r.CD ⟨0, by decide⟩)) = true := by decide
  obtain ⟨r, hr, hmem⟩ := (Option.any_eq_true _ _).1 hcode
  refine ⟨r, hr, fun h => ?_⟩
  obtain ⟨⟨s, hs, hreach⟩, -⟩ := loopOrExit.ntscd_iff.1 ((h _ _).1 (of_decide_eq_true hmem))
  -- the exit avoids the loop, and the other successor may go to the exit
  have hexit : ¬ loopOrExit.Reaching ⟨0, by decide⟩ ⟨2, by decide⟩ := fun hreach =>
    (hreach.of_ne (fun h => by cases h)).1 rfl
  have hq : ¬ loopOrExit.Reaching ⟨0, by decide⟩ ⟨1, by decide⟩ := fun hreach =>
    hexit ((hreach.of_ne (fun h => by cases h)).2 _ (List.mem_cons_of_mem _ List.mem_cons_self))
  have hall : ∀ s ∈ loopOrExit.successors ⟨3, by decide⟩, s = ⟨1, by decide⟩ ∨ s = ⟨2, by decide⟩ := by
    decide
  obtain rfl | rfl := hall s hs
  · exact hq hreach
  · exact hexit hreach

/-- A branch with an arm that does something and an arm that does not. -/
def branch : CDGraph := .ofSuccessors 3 ![[1, 2], [2], []] (by decide)

theorem compute_exact_branch : ∃ r, compute branch 5 = some r ∧
    ((∀ n p, p ∈ r.CD n ↔ branch.NTSCD p n) ↔ CountsRight branch) :=
  compute_exact_iff branch (by decide)

end NTSCD

end Cape.ControlDependence
