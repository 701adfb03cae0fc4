import Cape.Library.Height
import Cape.MemorySSA.OnDemandExact
import Mathlib.Order.CompletePartialOrder

/-!
# Searches end

A search goes on in the only predecessor of a block, or a PHI node of the block comes behind bytes that
nothing in the block was behind. When no block is reached from itself over blocks that have one
predecessor each, both come to an end, and there is a bound on the depth of all searches:
`exists_bound`.
-/

set_option autoImplicit false

namespace Cape.MemorySSA

open Cape.Library

universe u v w

/-! ## Uncovered bytes -/

section Bytes

variable {N : Type u}

theorem Definitions.not_covers_start_uncovered {D : Definitions N} (h : D.Tight) {ds : DefSite N}
    {J : DiscreteInterval} (hJ : J ∈ D.uncovered ds) :
    ¬ (D.kills.offsets ds.target).Covers J.start := by
  cases hdefines : D.kills.definesTarget ds.target with
  | true =>
      rw [uncovered, DefinitionsMap.undefinedIntervals_of_defines hdefines] at hJ
      exact DisjunctiveIntervalMap.not_covers_start_uncovered (h.kills ds.target).ordered
        ds.start_le_stop hJ
  | false =>
      rw [DefinitionsMap.definesTarget_eq_false_iff.1 hdefines]
      exact DisjunctiveIntervalMap.covers_nil _

theorem Definitions.covers_of_uncovered_eq_nil {D : Definitions N} (h : D.Tight) {ds : DefSite N}
    (hnil : D.uncovered ds = []) : ∀ c ∈ ds.getInterval, (D.kills.offsets ds.target).Covers c := by
  cases hdefines : D.kills.definesTarget ds.target with
  | true =>
      rw [uncovered, DefinitionsMap.undefinedIntervals_of_defines hdefines] at hnil
      exact DisjunctiveIntervalMap.covers_of_uncovered_eq_nil (h.kills ds.target).ordered
        ds.start_le_stop hnil
  | false =>
      rw [uncovered, DefinitionsMap.undefinedIntervals_of_absent hdefines] at hnil
      exact absurd hnil (List.cons_ne_nil _ _)

/-- The def-site for an interval has its first byte. -/
theorem DefSite.start_mem_ofInterval (t : Memory N) (J : DiscreteInterval) :
    J.start ∈ (ofInterval t J).getInterval := by
  by_cases hunknown : (ofInterval t J).offset = .unknown
  · have hstart : J.start = .unknown := hunknown
    rw [getInterval_of_unknown hunknown, hstart]
    exact ⟨not_lt.1 (Offset.not_unknown_lt _), le_refl _⟩
  · have hstop := (ofInterval t J).start_le_stop
    rw [getInterval_of_known hunknown] at hstop ⊢
    exact ⟨le_refl _, hstop⟩

end Bytes

instance : Finite Offset :=
  Finite.of_injective (fun c : Offset => c.offset.toFin) fun c d h => by
    cases c
    cases d
    exact congrArg Offset.mk (BitVec.eq_of_toFin_eq h)

variable {N : Type u} {B : Type v} {S : Type w}

/-- `getSinglePredecessor`, as a relation. -/
def ReadWriteGraph.OnlyPredecessor (G : ReadWriteGraph (RWNode N) B S) (p b : B) : Prop :=
  G.getSinglePredecessor b = some p

namespace Transformation

variable {G : ReadWriteGraph (RWNode N) B S} [DecidableEq N] {s t : Transformation N B}

omit [DecidableEq N] in
/-- The bytes of a memory that nothing is behind in the definitions of their blocks. -/
def freeBytes (s : Transformation N B) (m : Memory (RWNode N)) : Set (B × Offset) :=
  {p | ∀ D, s.definitions p.1 = some D → ¬ (D.kills.offsets m).Covers p.2}

theorem Grows.freeBytes_subset (h : s.Grows t) (m : Memory (RWNode N)) :
    t.freeBytes m ⊆ s.freeBytes m := by
  intro p hp D hD hcovers
  obtain ⟨D', hD', -, hkills⟩ := h.definitions p.1 D hD
  exact hp D' hD' (hkills m p.2 hcovers)

variable [DecidableEq B]

theorem extends_createAndPlacePhi (h : s.Shape G) (b : B) (ds : DefSite (RWNode N)) :
    (createAndPlacePhi G b ds s).1.Shape G ∧ s.Grows (createAndPlacePhi G b ds s).1 := by
  obtain ⟨hprocess, hD, -, -⟩ := extends_getBBlockDefinitions h b
  rw [createAndPlacePhi_eq]
  exact ⟨hprocess.shape.withPhi ds hD (Or.inr rfl),
    hprocess.grows.trans (hprocess.shape.grows_withPhi ds hD (Or.inr rfl))⟩

/-- A PHI node for an interval that was uncovered, at this time or before, comes behind a byte that was
free then. -/
theorem freeBytes_createAndPlacePhi (h : s.Shape G) (hextends : s.Extends G t) {b : B}
    {D : Definitions (RWNode N)} (hD : s.definitions b = some D) {ds : DefSite (RWNode N)}
    {J : DiscreteInterval} (hJ : J ∈ D.uncovered ds) :
    (createAndPlacePhi G b (.ofInterval ds.target J) t).1.freeBytes ds.target ⊂
      s.freeBytes ds.target := by
  obtain ⟨D', hD', -, hkills⟩ := hextends.grows.definitions b D hD
  obtain ⟨-, hgrows⟩ := extends_createAndPlacePhi hextends.shape b (.ofInterval ds.target J)
  have htight' := (hextends.shape.blocks b D' hD').tight
  have hsub := (hextends.grows.trans hgrows).freeBytes_subset ds.target
  -- one byte that was free and is covered now
  have hbyte : ∃ c, ¬ (D.kills.offsets ds.target).Covers c ∧
      ((D'.kills.offsets ds.target).Covers c ∨
        InIntervals ds.target (D'.uncovered (.ofInterval ds.target J)) c) := by
    cases hJs : D'.uncovered (.ofInterval ds.target J) with
    | nil =>
        refine ⟨J.start, Definitions.not_covers_start_uncovered (h.blocks b D hD).tight hJ, Or.inl ?_⟩
        exact Definitions.covers_of_uncovered_eq_nil htight' hJs _
          (DefSite.start_mem_ofInterval ds.target J)
    | cons J' Js =>
        have hJ' : J' ∈ D'.uncovered (.ofInterval ds.target J) := hJs ▸ List.mem_cons_self
        have hfree := Definitions.not_covers_start_uncovered htight' hJ'
        exact ⟨J'.start, fun hcovers => hfree (hkills _ _ hcovers),
          Or.inr ⟨J', List.mem_cons_self, DefSite.start_mem_ofInterval ds.target J'⟩⟩
  obtain ⟨c, hfree, hcovered⟩ := hbyte
  refine ⟨hsub, fun hback => ?_⟩
  have hmem : (b, c) ∈ s.freeBytes ds.target := by
    intro D₁ hD₁
    obtain rfl := Option.some.inj (hD.symm.trans hD₁)
    exact hfree
  have hcover := covered_cover (.phi t.phis.length) ds.target
    (D'.uncovered (.ofInterval ds.target J)) htight'
  refine hback hmem (cover (.phi t.phis.length) (.ofInterval ds.target J) D') ?_ ?_
  · rw [createAndPlacePhi_eq, getBBlockDefinitions, hD']
    exact Function.update_self _ _ _
  · exact (hcover.kills ds.target c).2 (hcovered.imp_right fun hc => ⟨rfl, hc⟩)

/-! ## The search -/

section Search

variable (G) in
/-- The free bytes come first, and then the blocks before the block that have one predecessor. -/
noncomputable def distance (s : Transformation N B) (b : B) (m : Memory (RWNode N)) : Nat :=
  (s.freeBytes m).ncard * (Nat.card B + 1) + height G.OnlyPredecessor b

variable (G) in
/-- A search that ends in a state that is near enough to its end. -/
def Ends (search : B → DefSite (RWNode N) → Transformation N B →
    Option (Transformation N B × List (RWNode N))) (bound : Nat) : Prop :=
  ∀ b ds s, s.Shape G → s.distance G b ds.target < bound → ∃ found, search b ds s = some found

section Distance

variable [Finite B]

omit [DecidableEq N] [DecidableEq B] in
theorem distance_lt_of_ssubset {m : Memory (RWNode N)} (h : t.freeBytes m ⊂ s.freeBytes m) (p b : B) :
    t.distance G p m < s.distance G b m := by
  have hcard := Set.ncard_lt_ncard h (Set.toFinite _)
  have hheight := height_le_card (r := G.OnlyPredecessor) p
  have hmul : ((t.freeBytes m).ncard + 1) * (Nat.card B + 1) ≤
      (s.freeBytes m).ncard * (Nat.card B + 1) := Nat.mul_le_mul_right _ hcard
  rw [Nat.succ_mul] at hmul
  rw [distance, distance]
  omega

omit [DecidableEq B] in
theorem distance_lt_of_onlyPredecessor
    (hacyclic : ∀ b, ¬ Relation.TransGen G.OnlyPredecessor b b) (h : s.Grows t) {p b : B}
    (hp : G.OnlyPredecessor p b) (m : Memory (RWNode N)) : t.distance G p m < s.distance G b m := by
  have hcard := Set.ncard_le_ncard (h.freeBytes_subset m) (Set.toFinite _)
  have hmul := Nat.mul_le_mul_right (Nat.card B + 1) hcard
  have hheight := height_lt hacyclic hp
  rw [distance, distance]
  omega

end Distance

variable [DecidableEq S] {search : B → DefSite (RWNode N) → Transformation N B →
  Option (Transformation N B × List (RWNode N))}

omit [DecidableEq B] [DecidableEq S] in
theorem exists_findPhiDefinitions (hright : SearchRight G search) (h : s.Shape G) (phi : RWNode N)
    {blocks : List B} {ds : DefSite (RWNode N)}
    (hends : ∀ p ∈ blocks, ∀ t, s.Extends G t → ∃ found, search p ds t = some found) :
    ∃ t, findPhiDefinitions search phi blocks ds s = some t := by
  have hloop := FallibleLoop.exists_foldlM (l := blocks)
    (f := fun (acc : Transformation N B × List (RWNode N)) p =>
      (search p ds acc.1).map fun found => (found.1, acc.2 ∪ found.2))
    (I := fun acc => s.Extends G acc.1) ?_ (s := (s, [])) (.refl h)
  · obtain ⟨acc, hacc, -⟩ := hloop
    refine ⟨acc.1.addDefUse phi acc.2, ?_⟩
    rw [findPhiDefinitions, hacc]
    rfl
  · intro p hp acc hacc
    -- the operands found so far leave a state from which the next search ends, too
    obtain ⟨found, hfound⟩ := hends p hp acc.1 hacc
    refine ⟨(found.1, acc.2 ∪ found.2), by rw [hfound]; rfl, ?_⟩
    exact hacc.trans (hright p ds acc.1 found.1 found.2 hacc.shape hfound).1

/-- In front of a block: the search ends if it ends in the predecessors, behind a new PHI node if there
are several. -/
theorem exists_findDefinitionsInPredecessors (hright : SearchRight G search) (h : s.Shape G) {b : B}
    {ds : DefSite (RWNode N)}
    (hsingle : ∀ p, G.OnlyPredecessor p b → ∃ found, search p ds s = some found)
    (hseveral : ∀ p ∈ G.predecessors b, ∀ t, (createAndPlacePhi G b ds s).1.Extends G t →
      ∃ found, search p ds t = some found) :
    ∃ found, findDefinitionsInPredecessors G search b ds s = some found := by
  rw [findDefinitionsInPredecessors]
  cases hp : G.getSinglePredecessor b with
  | some p => exact hsingle p hp
  | none =>
      show ∃ found, findDefinitionsInMultiplePredecessors G search b ds s = some found
      rw [findDefinitionsInMultiplePredecessors]
      by_cases hroot : (G.predecessors b).isEmpty = true
      · rw [if_pos hroot]
        split
        · exact ⟨_, rfl⟩
        · exact ⟨_, rfl⟩
      · rw [if_neg hroot]
        obtain ⟨t, ht⟩ := exists_findPhiDefinitions hright (extends_createAndPlacePhi h b ds).1
          (createAndPlacePhi G b ds s).2 hseveral
        exact ⟨_, Option.map_eq_some_iff.2 ⟨t, ht, rfl⟩⟩

/-- What is uncovered at a place: the search ends if it ends for each interval, from every later state. -/
theorem exists_addUncoveredFromPredecessors (hright : SearchRight G search) (h : s.Shape G) {b : B}
    {D : Definitions (RWNode N)} {ds : DefSite (RWNode N)} (defs : List (RWNode N))
    (hends : ∀ J ∈ D.uncovered ds, ∀ t, s.Extends G t → ∃ found,
      findDefinitionsInPredecessors G search b (.ofInterval ds.target J) t = some found) :
    ∃ found, addUncoveredFromPredecessors G search b D ds defs s = some found := by
  have hloop := FallibleLoop.exists_foldlM (l := D.uncovered ds)
    (f := fun (acc : Transformation N B × List (RWNode N)) J =>
      (findDefinitionsInPredecessors G search b (.ofInterval ds.target J) acc.1).map
        fun found => (found.1, acc.2 ++ found.2))
    (I := fun acc => s.Extends G acc.1) ?_ (s := (s, defs)) (.refl h)
  · obtain ⟨acc, hacc, -⟩ := hloop
    exact ⟨acc, hacc⟩
  · intro J hJ acc hacc
    obtain ⟨found, hfound⟩ := hends J hJ acc.1 hacc
    refine ⟨(found.1, acc.2 ++ found.2), by rw [hfound]; rfl, ?_⟩
    exact hacc.trans (hright.findDefinitionsInPredecessors hacc.shape hfound).1

/-- **The search ends**, when its bound is greater than the distance. -/
theorem ends_findDefinitionsAt [Finite B]
    (hacyclic : ∀ b, ¬ Relation.TransGen G.OnlyPredecessor b b) :
    ∀ fuel : Nat, Ends G (findDefinitionsAt (N := N) (B := B) G fuel) fuel := by
  intro fuel
  -- each nested search starts nearer to its end
  induction fuel with
  | zero => exact fun _ _ _ _ hlt => absurd hlt (Nat.not_lt_zero _)
  | succ fuel ih =>
      intro b ds s h hlt
      obtain ⟨hprocess, hD, -, -⟩ := extends_getBBlockDefinitions h b
      show ∃ found, addUncoveredFromPredecessors G (findDefinitionsAt G fuel) b
        (getBBlockDefinitions G b s).2 ds ((getBBlockDefinitions G b s).2.get ds)
          (getBBlockDefinitions G b s).1 = some found
      generalize getBBlockDefinitions G b s = processed at hprocess hD ⊢
      obtain ⟨s₁, D⟩ := processed
      dsimp only at hprocess hD ⊢
      refine exists_addUncoveredFromPredecessors (searchRight_findDefinitionsAt fuel) hprocess.shape
        _ fun J hJ t ht => ?_
      refine exists_findDefinitionsInPredecessors (searchRight_findDefinitionsAt fuel) ht.shape
        (fun p hp => ih p _ t ht.shape ?_) fun p hp u hu => ih p _ u hu.shape ?_
      · -- the only predecessor has fewer blocks before it, and no byte becomes free
        have hnear := distance_lt_of_onlyPredecessor hacyclic (hprocess.grows.trans ht.grows) hp ds.target
        exact Nat.lt_of_lt_of_le hnear (Nat.le_of_lt_succ hlt)
      · -- the PHI node took a free byte away
        have hfewer := freeBytes_createAndPlacePhi hprocess.shape ht hD hJ
        have hnear := distance_lt_of_ssubset (G := G)
          ((hu.grows.freeBytes_subset _).trans_ssubset
            (hfewer.trans_subset (hprocess.grows.freeBytes_subset _))) p b
        exact Nat.lt_of_lt_of_le hnear (Nat.le_of_lt_succ hlt)

end Search

/-! ## Reads of unknown memory -/

section Unknown

omit [DecidableEq B] in
/-- The predecessors are collected when each of them is, with more and more blocks visited. -/
theorem exists_collectFrom (collect : B → Collected N B → Option (Collected N B))
    (start : DefinitionsMap (RWNode N)) {blocks : List B} {c : Collected N B}
    (h : ∀ p ∈ blocks, ∀ mid : Collected N B, c.visitedBlocks ⊆ mid.visitedBlocks →
      ∃ mid', collect p mid = some mid' ∧ mid.visitedBlocks ⊆ mid'.visitedBlocks) :
    ∃ c', collectFrom collect start blocks c = some c' ∧ c.visitedBlocks ⊆ c'.visitedBlocks := by
  refine FallibleLoop.exists_foldlM (I := fun mid : Collected N B => c.visitedBlocks ⊆ mid.visitedBlocks)
    (fun p hp mid hmid => ?_) fun _ hx => hx
  obtain ⟨tmp, htmp, hmore⟩ :=
    h p hp { mid with defs := { Definitions.empty with definitions := start } } hmid
  exact ⟨_, Option.map_eq_some_iff.2 ⟨tmp, htmp, rfl⟩, fun x hx => hmore (hmid hx)⟩

/-- No block is collected twice. -/
theorem exists_collectAllDefinitions [Finite B] (targets : List (Memory (RWNode N))) : ∀ (fuel : Nat)
    (b : B) (c : Collected N B), {x | x ∉ c.visitedBlocks}.ncard < fuel →
      ∃ c', collectAllDefinitions G targets fuel b c = some c' ∧
        c.visitedBlocks ⊆ c'.visitedBlocks := by
  intro fuel
  induction fuel with
  | zero => exact fun _ _ hlt => absurd hlt (Nat.not_lt_zero _)
  | succ fuel ih =>
      intro b c hlt
      rw [collectAllDefinitions]
      by_cases hb : b ∈ c.visitedBlocks
      · rw [if_pos hb]
        exact ⟨c, rfl, fun _ hx => hx⟩
      · -- the block is visited now, so that fewer are left for its predecessors
        rw [if_neg hb]
        have hfewer : ∀ mid : Collected N B, b :: c.visitedBlocks ⊆ mid.visitedBlocks →
            {x | x ∉ mid.visitedBlocks}.ncard < fuel := by
          intro mid hmid
          have hsub : {x | x ∉ mid.visitedBlocks} ⊂ {x | x ∉ c.visitedBlocks} := by
            refine ⟨fun x hx hmem => hx (hmid (List.mem_cons_of_mem b hmem)), fun hback => ?_⟩
            exact hback hb (hmid List.mem_cons_self)
          have hcard := Set.ncard_lt_ncard hsub (Set.toFinite _)
          omega
        generalize hc₁ : (⟨(getBBlockDefinitions G b c.state).1, b :: c.visitedBlocks,
          joinDefinitions targets (getBBlockDefinitions G b c.state).2 c.defs⟩ : Collected N B) = c₁
        have hvisited : c₁.visitedBlocks = b :: c.visitedBlocks := by rw [← hc₁]
        have hmore : ∀ c' : Collected N B, c₁.visitedBlocks ⊆ c'.visitedBlocks →
            c.visitedBlocks ⊆ c'.visitedBlocks := by
          intro c' hc' x hx
          refine hc' ?_
          rw [hvisited]
          exact List.mem_cons_of_mem b hx
        cases G.getSinglePredecessor b with
        | some p =>
            obtain ⟨c', hc', hvisits⟩ := ih p c₁ (hfewer c₁ (by rw [hvisited]; exact List.Subset.refl _))
            subst hc₁
            exact ⟨c', hc', hmore c' hvisits⟩
        | none =>
            obtain ⟨c', hc', hvisits⟩ := exists_collectFrom (collectAllDefinitions G targets fuel)
              c₁.defs.definitions fun p (_ : p ∈ G.predecessors b) mid hmid =>
                ih p mid (hfewer mid (by rw [← hvisited]; exact hmid))
            subst hc₁
            exact ⟨c', hc', hmore c' hvisits⟩

end Unknown

variable (B) in
/-- No state is farther from the end of a search. -/
noncomputable def depthBound : Nat := Nat.card (B × Offset) * (Nat.card B + 1) + Nat.card B + 1

omit [DecidableEq N] [DecidableEq B] in
theorem distance_lt_depthBound [Finite B] (s : Transformation N B) (b : B) (m : Memory (RWNode N)) :
    s.distance G b m < depthBound B := by
  have hcard := Set.ncard_le_card (s.freeBytes m)
  have hmul := Nat.mul_le_mul_right (Nat.card B + 1) hcard
  have hheight := height_le_card (r := G.OnlyPredecessor) b
  rw [distance, depthBound]
  omega

/-! ## Cycles -/

section Cycles

omit [DecidableEq N] [DecidableEq B] in
/-- When all blocks are reached from one that has no predecessors, there is no cycle of blocks with one
predecessor each. -/
theorem acyclic_of_entry {entry : B} (hentry : G.predecessors entry = [])
    (hreach : ∀ b, Relation.ReflTransGen (fun p b => p ∈ G.predecessors b) entry b) (b : B) :
    ¬ Relation.TransGen G.OnlyPredecessor b b := by
  have hpath := hreach b
  -- from the entry, no path leads to a cycle
  induction hpath with
  | refl =>
      intro hcycle
      obtain ⟨p, -, hp⟩ := Relation.TransGen.tail'_iff.1 hcycle
      have hp := getSinglePredecessor_eq_some_iff.1 hp
      rw [hentry] at hp
      exact absurd hp (List.ne_nil_of_length_eq_add_one rfl).symm
  | tail _ hstep ih =>
      intro hcycle
      obtain ⟨p, hback, hp⟩ := Relation.TransGen.tail'_iff.1 hcycle
      rw [getSinglePredecessor_eq_some_iff.1 hp] at hstep
      obtain rfl := List.mem_singleton.1 hstep
      exact ih ((Relation.TransGen.single hp).trans_left hback)

end Cycles

/-! ## Queries -/

section Queries

variable [DecidableEq S] [Finite B]

theorem exists_findDefinitions (hacyclic : ∀ b, ¬ Relation.TransGen G.OnlyPredecessor b b)
    (h : s.Shape G) (targets : List (Memory (RWNode N))) {fuel : Nat} (hfuel : depthBound B ≤ fuel)
    {use : RWNode N} {b : B} (hb : s.getBBlock G use = some b) :
    ∃ found, findDefinitions G targets fuel use s = some found := by
  rw [findDefinitions, hb]
  dsimp only
  by_cases hunknown : s.usesUnknown G use = true
  · -- every block is collected at most once
    rw [if_pos hunknown, findAllDefinitions]
    have hends : ∀ p, ∀ c : Collected N B, ∃ c', collectAllDefinitions G targets fuel p c = some c' ∧
        c.visitedBlocks ⊆ c'.visitedBlocks := by
      intro p c
      refine exists_collectAllDefinitions targets fuel p c ?_
      have hcard := Set.ncard_le_card {x | x ∉ c.visitedBlocks}
      rw [depthBound] at hfuel
      omega
    cases G.getSinglePredecessor b with
    | some p =>
        obtain ⟨c', hc', -⟩ := hends p ⟨s, [], .empty⟩
        exact ⟨_, Option.map_eq_some_iff.2 ⟨c', hc', rfl⟩⟩
    | none =>
        obtain ⟨c', hc', -⟩ := exists_collectFrom (collectAllDefinitions G targets fuel)
          (findDefinitionsInBlock G s b use).kills (c := ⟨s, [], .empty⟩)
          fun p (_ : p ∈ G.predecessors b) mid _ => hends p mid
        exact ⟨_, Option.map_eq_some_iff.2 ⟨c', hc', rfl⟩⟩
  · -- no state is farther from the end than the bound
    rw [if_neg hunknown]
    have hends : ∀ p ds, ∀ t : Transformation N B, t.Shape G →
        ∃ found, findDefinitionsAt G fuel p ds t = some found := fun p ds t ht =>
      ends_findDefinitionsAt hacyclic fuel p ds t ht
        (Nat.lt_of_lt_of_le (t.distance_lt_depthBound p ds.target) hfuel)
    have hright := searchRight_findDefinitionsAt (G := G) (N := N) (B := B) fuel
    have htight := (h.placeRight_before b use).tight
    have hloop := FallibleLoop.exists_foldlM (l := (s.getAnnotations G use).uses)
      (f := fun (acc : Transformation N B × List (RWNode N)) ds =>
        addUncoveredFromPredecessors G (findDefinitionsAt G fuel) b (findDefinitionsInBlock G s b use) ds
          (acc.2 ++ (findDefinitionsInBlock G s b use).get ds) acc.1)
      (I := fun acc => s.Extends G acc.1) ?_ (s := (s, [])) (.refl h)
    · obtain ⟨acc, hacc, -⟩ := hloop
      exact ⟨acc, hacc⟩
    · intro ds _ acc hacc
      obtain ⟨found, hfound⟩ := exists_addUncoveredFromPredecessors hright hacc.shape
        (acc.2 ++ (findDefinitionsInBlock G s b use).get ds)
        fun J (_ : J ∈ (findDefinitionsInBlock G s b use).uncovered ds) t ht =>
          exists_findDefinitionsInPredecessors hright ht.shape (fun p _ => hends p _ t ht.shape)
            fun p _ u hu => hends p _ u hu.shape
      exact ⟨found, hfound,
        hacc.trans (hright.addUncoveredFromPredecessors htight hacc.shape hfound).1⟩

theorem exists_getDefinitions (hacyclic : ∀ b, ¬ Relation.TransGen G.OnlyPredecessor b b)
    (h : s.Shape G) (targets : List (Memory (RWNode N))) {fuel : Nat} (hfuel : depthBound B ≤ fuel)
    {use : RWNode N} {b : B} (hb : s.getBBlock G use = some b) :
    ∃ answer, getDefinitions G targets fuel use s = some answer := by
  rw [getDefinitions]
  cases s.defuse use with
  | some defs => exact ⟨_, rfl⟩
  | none =>
      obtain ⟨found, hfound⟩ := exists_findDefinitions hacyclic h targets hfuel hb
      exact ⟨_, Option.map_eq_some_iff.2 ⟨found, hfound, rfl⟩⟩

/-- **Queries are answered.** One bound on the depth is enough for all of them, in whatever state the
queries before have left. -/
theorem exists_bound (hG : CallFree G) (hacyclic : ∀ b, ¬ Relation.TransGen G.OnlyPredecessor b b) :
    ∃ bound, ∀ fuel, bound ≤ fuel → ∀ (asked : Query N → Prop) (s : Transformation N B),
      Reached G asked s → ∀ (targets : List (Memory (RWNode N))) (q : Query N) (b : B),
        G.getBBlock (.node q.place) = some b → ∃ answer, q.answer G targets fuel s = some answer := by
  refine ⟨depthBound B, fun fuel hfuel asked s hreached targets q b hb => ?_⟩
  have hshape := (settled_of_reached hG hreached).shape
  cases q with
  | use n =>
      have hplace : s.getBBlock G (.node n) = some b := hb
      exact exists_getDefinitions hacyclic hshape targets hfuel hplace
  | bytes n ds =>
      have hplace : s.getBBlock G (.node n) = some b := hb
      have hinsert : ∃ inserted, insertUse G (.node n) ds s = some inserted := by
        rw [insertUse, hplace]
        exact ⟨_, rfl⟩
      obtain ⟨⟨t, use⟩, hinsert⟩ := hinsert
      obtain ⟨hextends, b', hmu⟩ := extends_insertUse hshape hinsert
      obtain ⟨answer, hanswer⟩ :=
        exists_getDefinitions hacyclic hextends.shape targets hfuel hmu.getBBlock
      exact ⟨answer, Option.bind_eq_some_iff.2 ⟨(t, use), hinsert, hanswer⟩⟩

end Queries

end Transformation

theorem acyclic_loopGraph (b : Fin 3) : ¬ Relation.TransGen loopGraph.OnlyPredecessor b b := by
  have hentry : loopGraph.predecessors 0 = [] := rfl
  refine Transformation.acyclic_of_entry hentry (fun b => ?_) b
  have hfirst : Relation.ReflTransGen (fun p b => p ∈ loopGraph.predecessors b) 0 1 :=
    .single (show (0 : Fin 3) ∈ [0, 2] by decide)
  fin_cases b
  · exact .refl
  · exact hfirst
  · exact hfirst.tail (show (1 : Fin 3) ∈ [1] by decide)

theorem exists_bound_loopGraph : ∃ bound, ∀ fuel, bound ≤ fuel → ∀ (asked : Query Nat → Prop)
    (s : Transformation Nat (Fin 3)), Reached loopGraph asked s →
      ∀ (targets : List (Memory (RWNode Nat))) (q : Query Nat) (b : Fin 3),
        loopGraph.getBBlock (.node q.place) = some b →
          ∃ answer, q.answer loopGraph targets fuel s = some answer :=
  Transformation.exists_bound callFree_loopGraph acyclic_loopGraph

/-! ## Memory that nothing overwrites -/

namespace Transformation

variable {G : ReadWriteGraph (RWNode N) B S} [DecidableEq N] [DecidableEq B] {s : Transformation N B}

variable (G) in
/-- Nothing is behind the memory in the definitions of any block. -/
def Quiet (s : Transformation N B) (m : Memory (RWNode N)) : Prop :=
  ∀ b c, ¬ ((getBBlockDefinitions G b s).2.kills.offsets m).Covers c

/-- A block that is processed earlier gets the same definitions. -/
theorem getBBlockDefinitions_comm (s : Transformation N B) (b b' : B) :
    (getBBlockDefinitions G b' (getBBlockDefinitions G b s).1).2 = (getBBlockDefinitions G b' s).2 := by
  cases hb : s.definitions b with
  | some D => rw [getBBlockDefinitions.eq_1 G b s, hb]
  | none =>
      have hfirst : getBBlockDefinitions G b s =
          ({ s with definitions := Function.update s.definitions b (some (s.number G (s.nodes b))) },
            s.number G (s.nodes b)) := by
        rw [getBBlockDefinitions, hb]
      by_cases hsame : b' = b
      · subst hsame
        rw [hfirst, getBBlockDefinitions]
        dsimp only
        rw [Function.update_self]
      · rw [hfirst, getBBlockDefinitions, getBBlockDefinitions]
        dsimp only
        rw [Function.update_of_ne hsame]
        cases s.definitions b' with
        | some D => rfl
        | none => rfl

theorem Quiet.getBBlockDefinitions {m : Memory (RWNode N)} (h : s.Quiet G m) (b : B) :
    (getBBlockDefinitions G b s).1.Quiet G m := by
  intro b' c
  rw [getBBlockDefinitions_comm]
  exact h b' c

theorem quiet_initial {m : Memory (RWNode N)} (hm : ∀ x c, ¬ G.Kills m c x)
    (hG : CallFree G) : (initial G).Quiet G m := by
  intro b c hcovers
  obtain ⟨q, hq, hkill⟩ := ((numbered_run _ _).kills m c).1 hcovers
  obtain ⟨n, rfl⟩ := RWNode.exists_of_isNode (hG.nodes b q hq)
  exact hm (.node n) c hkill

variable [DecidableEq S]

/-- On a cycle of blocks with one predecessor each, the search goes round and round. -/
theorem findDefinitionsAt_of_cycle {m : Memory (RWNode N)} : ∀ (fuel : Nat) (b : B)
    (ds : DefSite (RWNode N)) (s : Transformation N B), Relation.TransGen G.OnlyPredecessor b b →
      ds.target = m → s.Shape G → s.Quiet G m → findDefinitionsAt G fuel b ds s = none := by
  intro fuel
  induction fuel with
  | zero => exact fun _ _ _ _ _ _ _ => rfl
  | succ fuel ih =>
      rintro b ds s hcycle rfl hshape hquiet
      obtain ⟨p, hback, hp⟩ := Relation.TransGen.tail'_iff.1 hcycle
      have hagain := (Relation.TransGen.single hp).trans_left hback
      obtain ⟨hprocess, hD, -, -⟩ := extends_getBBlockDefinitions hshape b
      have htight := (hprocess.shape.blocks b _ hD).tight
      show addUncoveredFromPredecessors G (findDefinitionsAt G fuel) b
        (Transformation.getBBlockDefinitions G b s).2 ds _
          (Transformation.getBBlockDefinitions G b s).1 = none
      rw [addUncoveredFromPredecessors]
      cases hJs : (Transformation.getBBlockDefinitions G b s).2.uncovered ds with
      | nil =>
          have hcovers := Definitions.covers_of_uncovered_eq_nil htight hJs _
            ⟨le_refl _, ds.start_le_stop⟩
          exact absurd hcovers (hquiet b _)
      | cons J Js =>
          rw [List.foldlM_cons, findDefinitionsInPredecessors, hp]
          dsimp only
          rw [ih p (.ofInterval ds.target J) _ hagain rfl hprocess.shape (hquiet.getBBlockDefinitions b)]
          rfl

/-- **When searches end.** For memory that nothing overwrites, there is a bound on the depth of the
first search if and only if no block is reached from itself over only predecessors. -/
theorem exists_bound_iff_acyclic [Finite B] (hG : CallFree G) {m : Memory (RWNode N)}
    (hm : ∀ x c, ¬ G.Kills m c x) :
    (∃ bound, ∀ b ds, ds.target = m →
      ∃ found, findDefinitionsAt G bound b ds (initial G) = some found) ↔
        ∀ b, ¬ Relation.TransGen G.OnlyPredecessor b b := by
  have hshape := (settled_initial hG).shape
  constructor
  · rintro ⟨bound, hends⟩ b hcycle
    obtain ⟨found, hfound⟩ := hends b ⟨m, 0, 1⟩ rfl
    rw [findDefinitionsAt_of_cycle bound b _ _ hcycle rfl hshape (quiet_initial hm hG)] at hfound
    cases hfound
  · intro hacyclic
    refine ⟨depthBound B, fun b ds _ => ends_findDefinitionsAt hacyclic _ b ds _ hshape ?_⟩
    exact distance_lt_depthBound _ b ds.target

end Transformation

/-- No node of the loop overwrites the memory 8. -/
theorem exists_bound_iff_acyclic_loopGraph :
    (∃ bound, ∀ b ds, ds.target = .node (.node 8) → ∃ found,
      Transformation.findDefinitionsAt loopGraph bound b ds (.initial loopGraph) = some found) ↔
        ∀ b, ¬ Relation.TransGen loopGraph.OnlyPredecessor b b := by
  refine Transformation.exists_bound_iff_acyclic callFree_loopGraph ?_
  rintro x c ⟨ds, hds, htarget, -⟩
  have hds : ds ∈ loopGraph.getOverwrites x := hds
  simp only [loopGraph] at hds
  split_ifs at hds
  · rw [List.mem_singleton.1 hds] at htarget
    exact absurd htarget (by decide)
  · exact absurd hds List.not_mem_nil

end Cape.MemorySSA
