import Cape.ControlDependence.DODExact
import Cape.Library.CountdownSet
import Cape.Library.FallibleLoop
import Cape.Library.FinLiterals
import Cape.Library.StrongClosure

/-!
# Strong control closures

`closeSet` looks for an edge that offends against the set, among those that are reachable from it,
adds the start of the first one it finds, and begins anew. What it asks about an edge is answered by
`theta`, the members of the set that come first, and by `gamma`, the nodes with a way past all
members.

`gamma` counts down successors from all members at once, and a member whose own counter comes to 0
is counted twice. `ControlClosure.closeSet_exact_iff`: `closeSet` and `gamma` are exact if and only
if no node is overcounted for any set that the closing may come to. `ControlClosure.stops_early`: a
member on a cycle is counted twice, and the closure is too small.
-/

set_option autoImplicit false

namespace Cape.ControlDependence

open Cape.Library Relation

/-- The nodes of a set in the order of their ids. -/
def CDGraph.byId (G : CDGraph) : Order G.Node where
  toList := fun s => G.nodes.filter (· ∈ s)
  nodup := fun _ => G.nodup_nodes.filter _
  mem_toList := by simp

namespace ControlClosure

variable {G : CDGraph}

/-- `foreachFirstReachable`, which is the one of `DOD`. -/
def foreachFirstReachable (nodes : Finset G.Node) (start : G.Node) : List G.Node :=
  (Worklist.order .stack (DOD.onward nodes) G.size
    ((G.successors start).foldl (Worklist.see .stack) ⟨∅, []⟩)).filter (· ∈ nodes)

/-- `theta`. -/
def theta (X : Finset G.Node) (n : G.Node) : Finset G.Node :=
  if n ∈ X then {n} else (foreachFirstReachable X n).toFinset

variable (O : Order G.Node)

/-- `gamma`: the nodes that are not coloured. The counters are `unsigned short`. -/
def gamma (targets : Finset G.Node) (fuel : Nat) : Option (Finset G.Node) :=
  (Countdown.searchAll G.successors G.predecessors 16 (O.toList targets) fuel).map fun colored =>
    (G.nodes.filter fun n => !colored n).toFinset

/-- The conditions (a), (b) and (c) on an edge. -/
def meetsConditions (X : Finset G.Node) (fuel : Nat) (p r : G.Node) : Option Bool :=
  if (theta X r).card ≠ 1 then some false
  else (gamma O X fuel).map fun gam =>
    if r ∈ gam then false
    else if (theta X p).card < 2 ∧ p ∉ gam then false
    else true

/-- `toadd`: the first node on the way that has an edge with all conditions met. -/
def toadd (X : Finset G.Node) (fuel : Nat) : Option (Option G.Node) :=
  (Worklist.order .stack G.successors G.size
    (((O.toList X).flatMap G.successors).foldl (Worklist.see .stack) ⟨∅, []⟩)).findM? fun p =>
      (G.successors p).anyM (meetsConditions O X fuel p)

/-- `closeSet`; `none` when the fuel of `gamma` or the rounds are spent. -/
def closeSet (fuel : Nat) : Nat → Finset G.Node → Option (Finset G.Node)
  | 0, _ => none
  | rounds + 1, X =>
      (toadd O X fuel).bind fun
        | some p => closeSet fuel rounds (insert p X)
        | none => some X

/-! ## What is to be computed -/

/-- A set that closing `X` may come to, by adding starts of offending edges. -/
def Stage (X Y : Finset G.Node) : Prop := ReflTransGen (Grows G.successors) (X : Set G.Node) Y

/-- `gamma` gives the nodes from which some maximal path avoids the set. -/
def GammaExact (fuel : Nat) (Y : Finset G.Node) : Prop :=
  ∃ gam, gamma O Y fuel = some gam ∧
    ∀ n, n ∈ gam ↔ ∃ π, MaximalPath G.successors n π ∧ ∀ i a, π i = some a → a ∉ Y

/-- `closeSet` gives the least strongly closed set above `X`, and `gamma` is exact on the way. -/
def ClosesExactly (fuel rounds : Nat) (X : Finset G.Node) : Prop :=
  (∃ X', closeSet O fuel rounds X = some X' ∧
    IsLeast {Y : Finset G.Node | X ⊆ Y ∧ StronglyClosed G.successors (Y : Set G.Node)} X') ∧
  ∀ Y, Stage X Y → GammaExact O fuel Y

/-- No node is overcounted for a set that closing `X` may come to. -/
def CountsRight (X : Finset G.Node) : Prop :=
  ∀ Y, Stage X Y → ∀ n, ¬ Countdown.Overcounted G.successors (· ∈ Y) n

/-! ## The parts -/

section Parts

variable {O}

theorem mem_theta {X : Finset G.Node} {n c : G.Node} :
    c ∈ theta X n ↔ Hits G.successors (· ∈ X) n c :=
  DOD.mem_colorOf X n c

theorem card_theta_eq_one_iff {X : Finset G.Node} {n : G.Node} :
    (theta X n).card = 1 ↔ ∃! c, Hits G.successors (· ∈ X) n c := by
  rw [Finset.card_eq_one]
  refine exists_congr fun c => ?_
  rw [Finset.ext_iff]
  simp only [mem_theta, Finset.mem_singleton]
  constructor
  · intro h
    exact ⟨(h c).2 rfl, fun d hd => (h d).1 hd⟩
  · rintro ⟨hc, hunique⟩ d
    exact ⟨hunique d, fun h => h ▸ hc⟩

theorem card_theta_lt_two_iff {X : Finset G.Node} {n : G.Node} :
    (theta X n).card < 2 ↔ ¬ Branches G.successors (X : Set G.Node) n := by
  rw [← not_le, not_iff_not, ← Nat.lt_iff_add_one_le, Finset.one_lt_card]
  constructor
  · rintro ⟨c, hc, d, hd, hcd⟩
    exact ⟨c, d, hcd, mem_theta.1 hc, mem_theta.1 hd⟩
  · rintro ⟨c, d, hcd, hc, hd⟩
    exact ⟨c, mem_theta.2 hc, d, mem_theta.2 hd, hcd⟩

theorem exists_gamma (hdeg : ∀ n, (G.successors n).length < 2 ^ 16) (X : Finset G.Node) {fuel : Nat}
    (hfuel : 2 * G.size + 1 ≤ fuel) : ∃ gam, gamma O X fuel = some gam ∧
      ∀ n, n ∈ gam ↔ ¬ (n ∈ X ∨ Countdown.Zeroed G.successors (· ∈ X) n) := by
  obtain ⟨colored, hrun, hcolored⟩ := Countdown.searchAll_spec (T := (· ∈ X)) hdeg
    G.nodup_successors G.nodup_predecessors G.mem_predecessors (O.nodup X) (O.mem_toList X)
    (show 2 * Fintype.card G.Node + 1 ≤ fuel by simpa using hfuel)
  refine ⟨(G.nodes.filter fun n => !colored n).toFinset, ?_, fun n => ?_⟩
  · rw [gamma]
    rw [hrun]
    rfl
  · rw [← hcolored n]
    simp

/-- **When `gamma` is exact.** -/
theorem gammaExact_iff (hdeg : ∀ n, (G.successors n).length < 2 ^ 16) {X : Finset G.Node}
    {fuel : Nat} (hfuel : 2 * G.size + 1 ≤ fuel) :
    GammaExact O fuel X ↔ ∀ n, ¬ Countdown.Overcounted G.successors (· ∈ X) n := by
  obtain ⟨gam, hgam, hmem⟩ := exists_gamma (O := O) hdeg X hfuel
  have hpaths : ∀ n, (∃ π, MaximalPath G.successors n π ∧ ∀ i a, π i = some a → a ∉ X) ↔
      ¬ Inevitable G.successors (· ∈ X) (fun _ => False) n := by
    intro n
    have havoid : ¬ AlwaysMeets G.successors (X : Set G.Node) n ↔ _ := not_alwaysMeets_iff
    rw [alwaysMeets_iff] at havoid
    exact havoid.symm
  rw [← Countdown.marked_iff_inevitable]
  constructor
  · rintro ⟨gam', hgam', hexact⟩ n
    obtain rfl := Option.some.inj (hgam.symm.trans hgam')
    rw [← not_iff_not, ← hmem, hexact, hpaths]
  · intro h
    refine ⟨gam, hgam, fun n => ?_⟩
    rw [hmem, h, hpaths]

variable {X : Finset G.Node} {fuel : Nat} (hexact : GammaExact O fuel X)

include hexact in
/-- With `gamma` exact, the conditions say that the edge offends. -/
theorem meetsConditions_spec {p r : G.Node} (hr : r ∈ G.successors p) :
    ∃ b, meetsConditions O X fuel p r = some b ∧
      (b = true ↔ Offends G.successors (X : Set G.Node) p r) := by
  obtain ⟨gam, hgam, hmem⟩ := hexact
  have havoids : ∀ n, n ∈ gam ↔ ¬ AlwaysMeets G.successors (X : Set G.Node) n := by
    intro n
    rw [hmem, not_alwaysMeets_iff]
    rfl
  rw [meetsConditions]
  by_cases hone : (theta X r).card = 1
  · rw [if_neg (not_not.2 hone), hgam, Option.map_some]
    refine ⟨_, rfl, ?_⟩
    rw [card_theta_eq_one_iff] at hone
    by_cases hrgam : r ∈ gam
    · rw [if_pos hrgam]
      exact iff_of_false Bool.false_ne_true fun h => (havoids r).1 hrgam h.sure
    · have hsure : AlwaysMeets G.successors (X : Set G.Node) r :=
        not_not.1 fun h => hrgam ((havoids r).2 h)
      have hquiet : (theta X p).card < 2 ∧ p ∉ gam ↔ ¬ (Branches G.successors (X : Set G.Node) p ∨
          ¬ AlwaysMeets G.successors (X : Set G.Node) p) := by
        rw [card_theta_lt_two_iff, havoids, not_or]
      rw [if_neg hrgam]
      split
      · next h => exact iff_of_false Bool.false_ne_true fun hoff => hquiet.1 h hoff.decides
      · next h => exact iff_of_true rfl ⟨hr, hone, hsure, not_not.1 fun hnot => h (hquiet.2 hnot)⟩
  · rw [if_pos hone]
    refine ⟨false, rfl, iff_of_false Bool.false_ne_true fun h => ?_⟩
    exact hone (card_theta_eq_one_iff.2 h.single)

/-- A test that gives an answer for all members, asked of one after the other. -/
theorem anyM_spec {N : Type} {f : N → Option Bool} {P : N → Prop} {l : List N}
    (h : ∀ x ∈ l, ∃ b, f x = some b ∧ (b = true ↔ P x)) :
    ∃ b, l.anyM f = some b ∧ (b = true ↔ ∃ x ∈ l, P x) := by
  induction l with
  | nil => exact ⟨false, rfl, by simp⟩
  | cons x l ih =>
      obtain ⟨hx, hl⟩ := List.forall_mem_cons.1 h
      obtain ⟨b, hb, hP⟩ := hx
      cases b with
      | true => exact ⟨true, by simp [List.anyM, hb], by simp [hP.1 rfl]⟩
      | false =>
          obtain ⟨c, hc, hrest⟩ := ih hl
          refine ⟨c, by simp [List.anyM, hb, hc], ?_⟩
          have hnot : ¬ P x := fun hx => Bool.false_ne_true (hP.2 hx)
          rw [hrest]
          simp [hnot]

/-- The first member that passes the test, if one does. -/
theorem findM?_spec {N : Type} {f : N → Option Bool} {P : N → Prop} {l : List N}
    (h : ∀ x ∈ l, ∃ b, f x = some b ∧ (b = true ↔ P x)) :
    ∃ o, l.findM? f = some o ∧ (∀ x, o = some x → x ∈ l ∧ P x) ∧
      (o = none → ∀ x ∈ l, ¬ P x) := by
  induction l with
  | nil => exact ⟨none, rfl, by simp, by simp⟩
  | cons x l ih =>
      obtain ⟨hx, hl⟩ := List.forall_mem_cons.1 h
      obtain ⟨b, hb, hP⟩ := hx
      cases b with
      | true =>
          refine ⟨some x, by simp [List.findM?, hb], ?_, nofun⟩
          rintro y ⟨⟩
          exact ⟨List.mem_cons_self, hP.1 rfl⟩
      | false =>
          obtain ⟨o, ho, hfound, hnone⟩ := ih hl
          refine ⟨o, by simp [List.findM?, hb, ho], fun y hy => ?_, fun ho => ?_⟩
          · exact ⟨List.mem_cons_of_mem x (hfound y hy).1, (hfound y hy).2⟩
          · refine List.forall_mem_cons.2 ⟨fun hx => ?_, hnone ho⟩
            exact Bool.false_ne_true (hP.2 hx)

/-- The nodes that a round looks at are those reachable from successors of the set. -/
theorem mem_queue {p : G.Node} : p ∈ Worklist.order .stack G.successors G.size
    (((O.toList X).flatMap G.successors).foldl (Worklist.see .stack) ⟨∅, []⟩) ↔
      ∃ x ∈ X, TransGen (fun a b => b ∈ G.successors a) x p := by
  rw [Worklist.mem_order_from _ _ _ (by simp)]
  constructor
  · rintro ⟨s, hs, hway⟩
    obtain ⟨x, hx, hs⟩ := List.mem_flatMap.1 hs
    exact ⟨x, (O.mem_toList X x).1 hx, .head' hs hway⟩
  · rintro ⟨x, hx, hway⟩
    obtain ⟨s, hs, hway⟩ := TransGen.head'_iff.1 hway
    exact ⟨s, List.mem_flatMap.2 ⟨x, (O.mem_toList X x).2 hx, hs⟩, hway⟩

include hexact in
/-- **One round**: the start of an offending edge is found, or no edge offends. -/
theorem toadd_spec : ∃ o, toadd O X fuel = some o ∧
    (∀ p, o = some p → p ∉ X ∧ Grows G.successors (X : Set G.Node) (insert p X : Finset G.Node)) ∧
    (o = none → StronglyClosed G.successors (X : Set G.Node)) := by
  obtain ⟨o, ho, hfound, hnone⟩ := findM?_spec (f := fun p =>
      (G.successors p).anyM (meetsConditions O X fuel p))
    (P := fun p => ∃ r ∈ G.successors p, Offends G.successors (X : Set G.Node) p r)
    fun p (_ : p ∈ Worklist.order .stack G.successors G.size
      (((O.toList X).flatMap G.successors).foldl (Worklist.see .stack) ⟨∅, []⟩)) =>
      anyM_spec fun r hr => meetsConditions_spec hexact hr
  refine ⟨o, ho, fun p hp => ?_, fun hend => ?_⟩
  · obtain ⟨hmem, r, hr, hoffends⟩ := hfound p hp
    obtain ⟨x, hx, hway⟩ := mem_queue.1 hmem
    exact ⟨hoffends.not_mem, p, r, ⟨x, hx, hway.to_reflTransGen⟩, hoffends, by simp⟩
  · rintro p ⟨x, hx, hway⟩ r hoffends
    obtain heq | hway := reflTransGen_iff_eq_or_transGen.1 hway
    · -- the edges of members themselves need not be looked at
      exact hoffends.not_mem (heq ▸ hx)
    · exact hnone hend p (mem_queue.2 ⟨x, hx, hway⟩) ⟨r, hoffends.edge, hoffends⟩

end Parts

/-! ## The closure -/

variable {O}

/-- **The loop** comes to the closed set when `gamma` is exact for all sets on the way. -/
theorem exists_closeSet {fuel : Nat} {X : Finset G.Node}
    (hexact : ∀ Y, Stage X Y → GammaExact O fuel Y) :
    ∀ {rounds : Nat} {Y : Finset G.Node}, Stage X Y → G.size + 1 ≤ rounds + Y.card →
      ∃ X', closeSet O fuel rounds Y = some X' ∧ Stage X X' ∧
        StronglyClosed G.successors (X' : Set G.Node) := by
  intro rounds
  induction rounds with
  | zero =>
      intro Y _ hrounds
      have hcard := Finset.card_le_univ Y
      rw [Fintype.card_fin] at hcard
      omega
  | succ rounds ih =>
      intro Y hY hrounds
      obtain ⟨o, ho, hsome, hnone⟩ := toadd_spec (hexact Y hY)
      cases o with
      | none => exact ⟨Y, by simp [closeSet, ho], hY, hnone rfl⟩
      | some p =>
          obtain ⟨hp, hgrows⟩ := hsome p rfl
          obtain ⟨X', hX', hstage, hclosed⟩ := ih (Y := insert p Y) (hY.tail hgrows) (by
            rw [Finset.card_insert_of_notMem hp]
            omega)
          exact ⟨X', by simpa [closeSet, ho] using hX', hstage, hclosed⟩

/-- **When `closeSet` and `gamma` are exact.** -/
theorem closeSet_exact_iff (G : CDGraph) (hdeg : ∀ n, (G.successors n).length < 2 ^ 16)
    (O : Order G.Node) (X : Finset G.Node) :
    ClosesExactly O (2 * G.size + 1) (G.size + 1) X ↔ CountsRight X := by
  constructor
  · rintro ⟨-, hexact⟩ Y hY
    exact (gammaExact_iff hdeg (Nat.le_refl _)).1 (hexact Y hY)
  · intro h
    have hexact : ∀ Y, Stage X Y → GammaExact O (2 * G.size + 1) Y := fun Y hY =>
      (gammaExact_iff hdeg (Nat.le_refl _)).2 (h Y hY)
    obtain ⟨X', hX', hstage, hclosed⟩ :=
      exists_closeSet hexact .refl (show G.size + 1 ≤ G.size + 1 + X.card by omega)
    have hleast := isLeast_of_grows hstage hclosed
    refine ⟨⟨X', hX', ⟨Finset.coe_subset.1 hleast.1.1, hclosed⟩, fun Z hZ => ?_⟩, hexact⟩
    exact Finset.coe_subset.1 (hleast.2 ⟨Finset.coe_subset.2 hZ.1, hZ.2⟩)

/-- **Closures beyond a branch** are exact. -/
theorem closeSet_exact_branch :
    ClosesExactly NTSCD.branch.byId (2 * NTSCD.branch.size + 1) (NTSCD.branch.size + 1)
      {⟨0, by decide⟩} ↔ CountsRight (G := NTSCD.branch) {⟨0, by decide⟩} :=
  closeSet_exact_iff NTSCD.branch (by decide) _ _

/-- A cycle of nodes 0, 1 and 2, which node 2 can leave to node 3. -/
def leavingCycle : CDGraph :=
  .ofSuccessors 4 ![[⟨1, by decide⟩], [⟨2, by decide⟩], [⟨0, by decide⟩, ⟨3, by decide⟩], []]
    (by decide)

/-- **A closure that is too small**: node 0 comes to 0 after node 1 and is counted twice in node 2,
which then seems to meet the set for sure. Its edge to node 0 offends and is not found. -/
theorem stops_early : closeSet leavingCycle.byId 9 5 {⟨0, by decide⟩, ⟨1, by decide⟩} =
      some {⟨0, by decide⟩, ⟨1, by decide⟩} ∧
    ¬ IsLeast {Y : Finset leavingCycle.Node | {⟨0, by decide⟩, ⟨1, by decide⟩} ⊆ Y ∧
      StronglyClosed leavingCycle.successors (Y : Set leavingCycle.Node)}
      {⟨0, by decide⟩, ⟨1, by decide⟩} := by
  refine ⟨by decide, fun hleast => ?_⟩
  have hmem : (⟨0, by decide⟩ : leavingCycle.Node) ∈
      (({⟨0, by decide⟩, ⟨1, by decide⟩} : Finset leavingCycle.Node) : Set leavingCycle.Node) := by
    decide
  refine hleast.1.2 ⟨2, by decide⟩ ⟨⟨1, by decide⟩, by decide, .single (by decide)⟩
    ⟨0, by decide⟩ ⟨by decide, ⟨_, (hits_of_mem hmem).2 rfl, fun c hc => (hits_of_mem hmem).1 hc⟩,
      alwaysMeets_iff.2 (.here hmem), Or.inr fun hsure => ?_⟩
  -- node 2 can go to node 3, where the paths end
  have hall := ((alwaysMeets_iff.1 hsure).of_not_goal (by decide)).2.2 ⟨3, by decide⟩ (by decide)
  exact (hall.of_not_goal (by decide)).2.1 rfl

end ControlClosure

end Cape.ControlDependence
