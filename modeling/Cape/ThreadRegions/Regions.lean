import Cape.Library.FinLiterals
import Cape.ThreadRegions.RegionsVisit

/-!
# Thread regions and their successors

A run of `build` ends with a partition of what the root reaches. The input decides it: `InRegion` is
the path from a founding node through nodes that found none (`mem_nodes_iff`).

The search records no successor for an edge to a node that is on the stack. Along every recorded
successor the founding node is finished earlier, so the regions of a loop that lies in several of
them cannot all be linked: the successors are those of the edges exactly when every loop stays
within a region.
-/

set_option autoImplicit false

namespace Cape.ThreadRegions

open Cape.Library

variable {Node : Type}

/-- The node is reached from the founding node through nodes that found no region. -/
def InRegion (graph : ThreadFlowGraph Node) (root founder node : Node) : Prop :=
  Founding graph root founder ∧ Relation.ReflTransGen
    (fun x y => graph.Edge x y ∧ ¬ Founding graph root y) founder node

/-- The root reaches the founding node of a region that it reaches. -/
theorem InRegion.reaches {graph : ThreadFlowGraph Node} {root founder node : Node}
    (h : InRegion graph root founder node) (hreach : graph.Reaches root node) :
    graph.Reaches root founder := by
  obtain ⟨_, hpath⟩ := h
  induction hpath with
  | refl => exact hreach
  | @tail x y _ hstep ih =>
      -- the last edge to `y` is the only one
      rcases Relation.ReflTransGen.cases_tail hreach with heq | ⟨x', hx', hedge⟩
      · exact absurd (Or.inl heq) hstep.2
      · exact ih (caller_unique hstep.2 hedge hstep.1 ▸ hx')

namespace ThreadRegionsBuilder

/-- The node is in the region. -/
def HasNode (builder : ThreadRegionsBuilder Node) (region : Nat) (node : Node) : Prop :=
  ∃ r, builder.threadRegions[region]? = some r ∧ node ∈ r.nodes

section Populate

variable {builder : ThreadRegionsBuilder Node}

theorem populate_fold (entries : List (Node × Nat)) : ∀ (regions : List (ThreadRegion Node))
    (i : Nat), (entries.foldl (fun regions entry => regions.modify entry.2 fun r =>
        { r with nodes := entry.1 :: r.nodes }) regions)[i]? =
      regions[i]?.map fun r =>
        { r with nodes := ((entries.filter (·.2 = i)).map Prod.fst).reverse ++ r.nodes } := by
  induction entries with
  | nil => simp
  | cons entry entries ih =>
      intro regions i
      rw [List.foldl_cons, ih, List.getElem?_modify, Option.map_eq_map, Option.map_map]
      congr 1
      funext r
      simp only [Function.comp]
      by_cases heq : entry.2 = i
      · simp [heq]
      · simp [heq]

@[simp] theorem founder_populate (r : Nat) :
    builder.populateThreadRegions.clearComputingData.founder r = builder.founder r := by
  simp only [founder, clearComputingData, populateThreadRegions, populate_fold, Option.map_map]
  rfl

theorem hasSuccessor_populate (r s : Nat) :
    builder.populateThreadRegions.clearComputingData.HasSuccessor r s ↔
      builder.HasSuccessor r s := by
  simp only [HasSuccessor, clearComputingData, populateThreadRegions, populate_fold,
    Option.map_eq_some_iff]
  constructor
  · rintro ⟨_, ⟨entry, hget, rfl⟩, hmem⟩
    exact ⟨entry, hget, hmem⟩
  · rintro ⟨entry, hget, hmem⟩
    exact ⟨_, ⟨entry, hget, rfl⟩, hmem⟩

end Populate

section Build

variable [DecidableEq Node] {graph : ThreadFlowGraph Node} {root : Node}
  {builder : ThreadRegionsBuilder Node}

theorem lookup_eq_some {map : List (Node × Nat)} (hnodup : (map.map Prod.fst).Nodup) {x : Node}
    {r : Nat} : map.lookup x = some r ↔ (x, r) ∈ map := by
  induction map with
  | nil => simp
  | cons entry map ih =>
      rw [List.map_cons, List.nodup_cons] at hnodup
      rw [List.lookup_cons, List.mem_cons]
      by_cases heq : x = entry.1
      · subst heq
        have hnot : (entry.1, r) ∉ map := fun hmem =>
          hnodup.1 (List.mem_map.2 ⟨_, hmem, rfl⟩)
        simp only [beq_self_eq_true, hnot, or_false, Prod.ext_iff, true_and]
        exact ⟨fun h => (Option.some.inj h).symm, fun h => congrArg some h.symm⟩
      · rw [show (x == entry.1) = false from beq_eq_false_iff_ne.2 heq]
        simp only [ih hnodup.2, Prod.ext_iff, heq, false_and, false_or]

/-- The state before the first visit. -/
theorem explored_start : Explored graph root (start root) := by
  have hfinishing : (start root).finishing = [root] := rfl
  have hregion : (start root).region root = some 0 := by simp [start, newRegion, emplaceVisited,
    emplace, region, regionOfExaminedNode, regionOfVisitedNode]
  have hregions : (start root).threadRegions = [{ foundingNode := root }] := rfl
  -- the root alone is on the stack, in the only region
  constructor
  case root_mem => simp [hfinishing]
  case unpopulated => simp [hregions]
  case nodup => simp [hfinishing]
  case path => exact List.IsChain.singleton _
  case reached =>
    intro x hx
    rw [hfinishing, List.mem_singleton] at hx
    exact hx ▸ .refl
  case founded =>
    intro x hx _
    rw [hfinishing, List.mem_singleton] at hx
    exact ⟨0, hx ▸ hregion, by simp [founder, hregions, hx]⟩
  case inherited =>
    intro x hx hnot
    rw [hfinishing, List.mem_singleton] at hx
    exact absurd (Or.inl hx) hnot
  case founder_mem =>
    intro r f hf
    cases r with
    | zero =>
        have hf : root = f := by simpa [founder, hregions] using hf
        subst hf
        exact ⟨by simp [hfinishing], Or.inl rfl, hregion⟩
    | succ r => simp [founder, hregions] at hf
  case recorded =>
    rintro r s ⟨entry, hget, hmem⟩
    cases r with
    | zero =>
        simp only [hregions, List.getElem?_cons_zero, Option.some.injEq] at hget
        simp [← hget] at hmem
    | succ r => simp [hregions] at hget
  case handled =>
    intro x hx
    simp [start, newRegion, emplaceVisited] at hx

/-- What `build` leaves: the known nodes are those that the root reaches, and each is in the region
that the search gave it. -/
structure Built (graph : ThreadFlowGraph Node) (root : Node)
    (search builder : ThreadRegionsBuilder Node) : Prop where
  explored : Explored graph root search
  known : ∀ x, x ∈ search.finishing ↔ graph.Reaches root x
  handled : ∀ x ∈ search.finishing, ∀ y, graph.Edge x y → Handled graph search x y
  founder : ∀ r, builder.founder r = search.founder r
  hasSuccessor : ∀ r s, builder.HasSuccessor r s ↔ search.HasSuccessor r s
  hasNode : ∀ r x, builder.HasNode r x ↔ search.region x = some r

theorem build_built [Fintype Node] (graph : ThreadFlowGraph Node) (root : Node) :
    ∃ search builder, build graph root = some builder ∧ Built graph root search builder := by
  have hstart : Explored graph root (start root) := explored_start
  have hdepth : (Finset.univ.filter (· ∉ (start root).finishing)).card < Fintype.card Node := by
    rw [← Finset.card_univ]
    apply Finset.card_lt_card
    rw [Finset.ssubset_iff_of_subset (Finset.filter_subset _ _)]
    exact ⟨root, Finset.mem_univ root, by simp [hstart.root_mem]⟩
  obtain ⟨search, hrun, hdone⟩ := visit_explored (Fintype.card Node) root 0 [] (start root)
    hstart rfl
    (fun x hx hnot hmem => hnot (Or.inl (List.mem_singleton.1 hmem))) hdepth
  have hexplored := hdone.explored
  -- the stack is empty again: every known node is examined
  have hexamined : search.finishing = (search.examinedNodeToRegionMap.map Prod.fst).reverse := by
    rw [finishing, hdone.stack]
    exact List.append_nil _
  have hhandled : ∀ x ∈ search.finishing, ∀ y, graph.Edge x y → Handled graph search x y := by
    intro x hx
    rw [hexamined, List.mem_reverse] at hx
    exact hexplored.handled x hx
  refine ⟨search, search.populateThreadRegions.clearComputingData, ?_, hexplored, ?_, hhandled,
    founder_populate, hasSuccessor_populate, ?_⟩
  · simp only [build, hrun, Option.bind_eq_bind, Option.bind_some]
    rfl
  · intro x
    constructor
    · exact hexplored.reached x
    · intro hreach
      induction hreach with
      | refl => exact hexplored.root_mem
      | tail _ hedge ih => exact (hhandled _ ih _ hedge).1
  · intro r x
    have hnodup : (search.examinedNodeToRegionMap.map Prod.fst).Nodup := by
      rw [← List.nodup_reverse, ← hexamined]
      exact hexplored.nodup
    have hregion : search.region x = search.examinedNodeToRegionMap.lookup x := by
      simp only [region, regionOfExaminedNode, regionOfVisitedNode, hdone.stack]
      split
      · next heq => exact heq.symm
      · next heq => rw [heq]; rfl
    rw [hregion, lookup_eq_some hnodup]
    simp only [HasNode, clearComputingData, populateThreadRegions, populate_fold,
      Option.map_eq_some_iff]
    constructor
    · -- the regions have no nodes before `populateThreadRegions`
      rintro ⟨_, ⟨entry, hget, rfl⟩, hmem⟩
      have hnil := hexplored.unpopulated entry (List.mem_of_getElem? hget)
      simpa [hnil] using hmem
    · intro hmem
      have hx : x ∈ search.finishing := by
        rw [hexamined, List.mem_reverse]
        exact List.mem_map_of_mem (f := Prod.fst) hmem
      obtain ⟨r', f, hr', hf, _⟩ := hexplored.exists_founder hx
      rw [hregion, (lookup_eq_some hnodup).2 hmem] at hr'
      obtain rfl := Option.some.inj hr'
      obtain ⟨entry, hget, _⟩ := Option.map_eq_some_iff.1 hf
      exact ⟨_, ⟨entry, hget, rfl⟩, by simpa using Or.inl hmem⟩

/-! ## Regions -/

namespace Built

variable {search : ThreadRegionsBuilder Node} {x y f : Node} {r : Nat}

/-- A node that founds no region is in the region of the node before it. -/
theorem region_eq (h : Built graph root search builder) (hx : graph.Reaches root x)
    (hedge : graph.Edge x y) (hnot : ¬ Founding graph root y) :
    search.region y = search.region x := by
  have hy := (h.known y).2 (hx.tail hedge)
  obtain ⟨caller, hcaller, hsame, _⟩ := h.explored.inherited y hy hnot
  rw [hsame, caller_unique hnot hcaller hedge]

/-- The path of a region stays in it. -/
theorem region_of_path (h : Built graph root search builder) (hf : graph.Reaches root f)
    (hpath : Relation.ReflTransGen (fun x y => graph.Edge x y ∧ ¬ Founding graph root y) f x) :
    graph.Reaches root x ∧ search.region x = search.region f := by
  induction hpath with
  | refl => exact ⟨hf, rfl⟩
  | tail _ hstep ih => exact ⟨ih.1.tail hstep.1, (h.region_eq ih.1 hstep.1 hstep.2).trans ih.2⟩

/-- The region of a node is that of the founding node which reaches it within the region. -/
theorem exists_inRegion (h : Built graph root search builder) (hx : graph.Reaches root x) :
    ∃ r f, search.region x = some r ∧ search.founder r = some f ∧ InRegion graph root f x := by
  induction hx with
  | refl =>
      obtain ⟨r, hr, hf⟩ := h.explored.founded root h.explored.root_mem (Or.inl rfl)
      exact ⟨r, root, hr, hf, Or.inl rfl, .refl⟩
  | @tail x y hx hedge ih =>
      by_cases hfound : Founding graph root y
      · obtain ⟨r, hr, hf⟩ := h.explored.founded y ((h.known y).2 (hx.tail hedge)) hfound
        exact ⟨r, y, hr, hf, hfound, .refl⟩
      · obtain ⟨r, f, hr, hf, hfounding, hpath⟩ := ih
        exact ⟨r, f, (h.region_eq hx hedge hfound).trans hr, hf, hfounding,
          hpath.tail ⟨hedge, hfound⟩⟩

theorem founder_inj (h : Built graph root search builder) {s : Nat}
    (hr : search.founder r = some f) (hs : search.founder s = some f) : r = s := by
  have heq := (h.explored.founder_mem r f hr).2.2
  rw [(h.explored.founder_mem s f hs).2.2] at heq
  exact (Option.some.inj heq).symm

/-- **The input decides the regions.** -/
theorem mem_nodes_iff (h : Built graph root search builder) (hf : search.founder r = some f) :
    builder.HasNode r x ↔ InRegion graph root f x := by
  obtain ⟨hmem, hfounding, hregion⟩ := h.explored.founder_mem r f hf
  rw [h.hasNode]
  constructor
  · intro hx
    have hknown : x ∈ search.finishing := by
      by_contra hnot
      simp [region_eq_none.2 hnot] at hx
    obtain ⟨r', f', hr', hf', hin⟩ := h.exists_inRegion ((h.known x).1 hknown)
    rw [hx] at hr'
    obtain rfl := Option.some.inj hr'
    rw [hf] at hf'
    exact Option.some.inj hf' ▸ hin
  · intro hin
    exact (h.region_of_path ((h.known f).1 hmem) hin.2).2.trans hregion

/-- Two nodes are in one region exactly when one founding node has both. -/
theorem region_eq_iff (h : Built graph root search builder) (hx : graph.Reaches root x)
    (hy : graph.Reaches root y) : search.region x = search.region y ↔
      ∃ f, InRegion graph root f x ∧ InRegion graph root f y := by
  obtain ⟨r, f, hr, hf, hin⟩ := h.exists_inRegion hx
  obtain ⟨s, g, hs, hg, hin'⟩ := h.exists_inRegion hy
  constructor
  · intro heq
    rw [hr, hs] at heq
    obtain rfl := Option.some.inj heq
    rw [hf] at hg
    obtain rfl := Option.some.inj hg
    exact ⟨f, hin, hin'⟩
  · rintro ⟨e, hex, hey⟩
    have he := hex.reaches hx
    rw [(h.region_of_path he hex.2).2, (h.region_of_path he hey.2).2]

end Built

/-- Regions partition what the root reaches, and each is entered at its founding node only. -/
structure SingleEntry (graph : ThreadFlowGraph Node) (root : Node)
    (builder : ThreadRegionsBuilder Node) : Prop where
  partition : ∀ node, graph.Reaches root node → ∃! r, builder.HasNode r node
  connected : ∀ (r : Nat) (region : ThreadRegion Node), builder.threadRegions[r]? = some region →
    ∀ node ∈ region.nodes, Relation.ReflTransGen
      (fun x y => graph.Edge x y ∧ x ∈ region.nodes ∧ y ∈ region.nodes) region.foundingNode node
  entered : ∀ node successor, graph.Reaches root node → graph.Edge node successor →
    ∀ (r : Nat) (region : ThreadRegion Node), builder.threadRegions[r]? = some region →
      successor ∈ region.nodes → successor ≠ region.foundingNode → node ∈ region.nodes

/-- **Regions are single-entry parts of the graph.** For every graph and root `build` returns, and
then the regions partition what the root reaches; every region is reached from its founding node
within it, and an edge that comes from elsewhere leads to the founding node. -/
theorem build_singleEntry [Fintype Node] (graph : ThreadFlowGraph Node) (root : Node) :
    ∃ builder, build graph root = some builder ∧ SingleEntry graph root builder := by
  obtain ⟨search, builder, hrun, h⟩ := build_built graph root
  have hfounder : ∀ {r : Nat} {region : ThreadRegion Node}, builder.threadRegions[r]? = some region →
      search.founder r = some region.foundingNode := by
    intro r region hget
    rw [← h.founder, founder, hget]
    rfl
  have hmem : ∀ {r : Nat} {region : ThreadRegion Node} {x : Node},
      builder.threadRegions[r]? = some region →
      (x ∈ region.nodes ↔ InRegion graph root region.foundingNode x) := by
    intro r region x hget
    rw [← h.mem_nodes_iff (hfounder hget), HasNode]
    simp [hget]
  refine ⟨builder, hrun, ?_, ?_, ?_⟩
  · intro node hreach
    obtain ⟨r, f, hr, _, _⟩ := h.exists_inRegion hreach
    refine ⟨r, (h.hasNode r node).2 hr, fun s hs => ?_⟩
    have hs := (h.hasNode s node).1 hs
    rw [hr] at hs
    exact (Option.some.inj hs).symm
  · intro r region hget node hnode
    obtain ⟨hfound, hpath⟩ := (hmem hget).1 hnode
    -- every node of the path is in the region
    induction hpath with
    | refl => exact .refl
    | @tail x y hpath hstep ih =>
        have hx : x ∈ region.nodes := (hmem hget).2 ⟨hfound, hpath⟩
        exact (ih hx).tail ⟨hstep.1, hx, hnode⟩
  · intro node successor hreach hedge r region hget hsuccessor hne
    have hr := (h.mem_nodes_iff (hfounder hget)).2 ((hmem hget).1 hsuccessor)
    rw [h.hasNode] at hr
    have hnot : ¬ Founding graph root successor := by
      intro hfound
      obtain ⟨s, hs, hf⟩ := h.explored.founded successor
        ((h.known _).2 (hreach.tail hedge)) hfound
      rw [hr] at hs
      obtain rfl := Option.some.inj hs
      rw [hfounder hget] at hf
      exact hne (Option.some.inj hf).symm
    rw [h.region_eq hreach hedge hnot] at hr
    exact (hmem hget).2 ((h.mem_nodes_iff (hfounder hget)).1 ((h.hasNode r node).2 hr))

/-! ## Successors -/

/-- The successors of a region are the other regions that an edge leads to. -/
def EdgesReflectFlow (graph : ThreadFlowGraph Node) (builder : ThreadRegionsBuilder Node) : Prop :=
  ∀ r s, r ≠ s → (builder.HasSuccessor r s ↔
    ∃ node successor, graph.Edge node successor ∧ builder.HasNode r node ∧
      builder.HasNode s successor)

/-- Every loop that the root reaches stays within a region. -/
def LoopsWithinRegions (graph : ThreadFlowGraph Node) (root : Node) : Prop :=
  ∀ node successor, graph.Reaches root node → graph.Edge node successor →
    graph.Reaches successor node →
      ∃ founder, InRegion graph root founder node ∧ InRegion graph root founder successor

namespace Built

variable {search : ThreadRegionsBuilder Node} {x y : Node}

/-- Where the edges are reflected, an edge leads to the same region or to one whose founding node is
finished earlier. -/
theorem precedes_of_edge (h : Built graph root search builder)
    (hreflect : EdgesReflectFlow graph builder) (hedge : graph.Edge x y) {r s : Nat}
    {f g : Node} (hr : search.region x = some r) (hf : search.founder r = some f)
    (hs : search.region y = some s) (hg : search.founder s = some g) : g = f ∨ Precedes search.finishing g f := by
  by_cases hne : r = s
  · subst hne
    rw [hf] at hg
    exact Or.inl (Option.some.inj hg).symm
  · have hsuccessor := (hreflect r s hne).2
      ⟨x, y, hedge, (h.hasNode r x).2 hr, (h.hasNode s y).2 hs⟩
    obtain ⟨u, v, huv, hu, hv, hprec⟩ := h.explored.recorded r s ((h.hasSuccessor r s).1 hsuccessor)
    have hureach := (h.known u).1 hprec.mem_right
    have hfound : Founding graph root v := by
      by_contra hnot
      rw [h.region_eq hureach huv hnot, hu] at hv
      exact hne (Option.some.inj hv)
    obtain ⟨s', hs', hv'⟩ := h.explored.founded v hprec.mem_left hfound
    rw [hv] at hs'
    obtain rfl := Option.some.inj hs'
    rw [hg] at hv'
    obtain rfl := Option.some.inj hv'
    -- `u` stands before the founding node of its region
    obtain ⟨r', f', hr', hf', hbefore⟩ := h.explored.exists_founder hprec.mem_right
    rw [hu] at hr'
    obtain rfl := Option.some.inj hr'
    rw [hf] at hf'
    obtain rfl := Option.some.inj hf'
    rcases hbefore with rfl | hbefore
    · exact Or.inr hprec
    · exact Or.inr (hprec.trans hbefore h.explored.nodup)

theorem precedes_of_reaches (h : Built graph root search builder)
    (hreflect : EdgesReflectFlow graph builder) (hx : graph.Reaches root x)
    (hpath : graph.Reaches x y) : ∀ {r s : Nat} {f g : Node}, search.region x = some r →
      search.founder r = some f → search.region y = some s → search.founder s = some g →
        g = f ∨ Precedes search.finishing g f := by
  induction hpath with
  | refl =>
      intro r s f g hr hf hs hg
      rw [hr] at hs
      obtain rfl := Option.some.inj hs
      rw [hf] at hg
      exact Or.inl (Option.some.inj hg).symm
  | @tail y z hpath hedge ih =>
      intro r s f g hr hf hs hg
      have hy := Relation.ReflTransGen.trans hx hpath
      obtain ⟨t, e, ht, he, _⟩ := h.exists_inRegion hy
      have hstep := h.precedes_of_edge hreflect hedge ht he hs hg
      rcases ih hr hf ht he with rfl | hprec
      · exact hstep
      · rcases hstep with rfl | hprec'
        · exact Or.inr hprec
        · exact Or.inr (hprec'.trans hprec h.explored.nodup)

theorem edgesReflectFlow_iff (h : Built graph root search builder) :
    EdgesReflectFlow graph builder ↔ LoopsWithinRegions graph root := by
  constructor
  · intro hreflect x y hx hedge hloop
    have hy := hx.tail hedge
    obtain ⟨r, f, hr, hf, _⟩ := h.exists_inRegion hx
    obtain ⟨s, g, hs, hg, _⟩ := h.exists_inRegion hy
    rw [← h.region_eq_iff hx hy]
    have hsame : f = g := by
      rcases h.precedes_of_edge hreflect hedge hr hf hs hg with heq | hprec
      · exact heq.symm
      · rcases h.precedes_of_reaches hreflect hy hloop hs hg hr hf with heq | hprec'
        · exact heq
        · exact absurd (hprec.idxOf_lt h.explored.nodup)
            (lt_asymm (hprec'.idxOf_lt h.explored.nodup))
    rw [hr, hs, h.founder_inj hf (hsame ▸ hg)]
  · intro hloops r s hne
    rw [h.hasSuccessor]
    constructor
    · intro hsuccessor
      obtain ⟨u, v, huv, hu, hv, _⟩ := h.explored.recorded r s hsuccessor
      exact ⟨u, v, huv, (h.hasNode r u).2 hu, (h.hasNode s v).2 hv⟩
    · rintro ⟨u, v, huv, hu, hv⟩
      rw [h.hasNode] at hu hv
      have humem : u ∈ search.finishing := by
        by_contra hnot
        simp [region_eq_none.2 hnot] at hu
      have hdiffer : search.region v ≠ search.region u := by
        rw [hu, hv]
        exact fun heq => hne (Option.some.inj heq).symm
      have hureach := (h.known u).1 humem
      obtain ⟨_, hloop | ⟨_, hregion | ⟨r', s', hr', hs', hrecorded⟩⟩⟩ := h.handled u humem v huv
      · -- the target was on the stack
        have hsame := (h.region_eq_iff hureach (hureach.tail huv)).2 (hloops u v hureach huv hloop)
        exact absurd hsame.symm hdiffer
      · exact absurd hregion hdiffer
      · rw [hu] at hr'
        rw [hv] at hs'
        obtain rfl := Option.some.inj hr'
        obtain rfl := Option.some.inj hs'
        exact hrecorded

end Built

/-- **When the successors are those of the edges.** `build` returns, and the regions have the
successors that the edges give them if and only if every loop stays within a region. -/
theorem build_edgesReflectFlow_iff [Fintype Node] (graph : ThreadFlowGraph Node) (root : Node) :
    ∃ builder, build graph root = some builder ∧
      (EdgesReflectFlow graph builder ↔ LoopsWithinRegions graph root) := by
  obtain ⟨search, builder, hrun, h⟩ := build_built graph root
  exact ⟨builder, hrun, h.edgesReflectFlow_iff⟩

end Build

theorem branchInLoop_nodup (_ : Fin 5) : ([] : List (Fin 5)).Nodup := List.nodup_nil

theorem branchInLoop_noForks (node successor : Fin 5) :
    node ∈ ([] : List (Fin 5)) ↔ successor ∈ ([] : List (Fin 5)) :=
  iff_of_false List.not_mem_nil List.not_mem_nil

/-- A loop with a branch in its body: 1 is the head, 4 joins the branch and goes back to it. -/
def branchInLoop : ThreadFlowGraph (Fin 5) where
  getType node := if node = 0 then .entry else .general
  successors := ![[1], [2, 3], [4], [4], [1]]
  predecessors := ![[], [0, 4], [1], [1], [2, 3]]
  forkSuccessors _ := []
  forkPredecessors _ := []
  joinSuccessors _ := []
  joinPredecessors _ := []
  successors_nodup := by decide
  predecessors_nodup := by decide
  forkSuccessors_nodup := branchInLoop_nodup
  forkPredecessors_nodup := branchInLoop_nodup
  joinSuccessors_nodup := branchInLoop_nodup
  joinPredecessors_nodup := branchInLoop_nodup
  mem_predecessors := by decide
  mem_forkPredecessors := branchInLoop_noForks
  mem_joinPredecessors := branchInLoop_noForks
  forkSuccessors_type := by decide
  joinSuccessors_type := by decide

/-- The region of 4 does not have that of 1 as a successor. -/
theorem backEdge_lost : ¬ ∃ builder, build branchInLoop 0 = some builder ∧
    EdgesReflectFlow branchInLoop builder := by
  rintro ⟨builder, hrun, hreflect⟩
  have hbuild : (build branchInLoop 0).map (fun builder => builder.threadRegions.map fun region =>
      (region.nodes, region.successors)) = some [([0], [1]), ([2, 3, 1], [2]), ([4], [])] := by
    decide +kernel
  rw [hrun, Option.map_some, Option.some.injEq] at hbuild
  have hget : ∀ r : Nat, (builder.threadRegions[r]?).map (fun region =>
      (region.nodes, region.successors)) =
        [([0], [1]), ([2, 3, 1], [2]), ([4], [])][r]? := by
    intro r
    rw [← List.getElem?_map, hbuild]
  obtain ⟨head, hhead, hnodes⟩ := Option.map_eq_some_iff.1 ((hget 1).trans rfl)
  obtain ⟨tail, htail, hlast⟩ := Option.map_eq_some_iff.1 ((hget 2).trans rfl)
  have hheadNodes : head.nodes = [2, 3, 1] := congrArg Prod.fst hnodes
  have hlastNodes : tail.nodes = [4] := congrArg Prod.fst hlast
  have hlastSuccessors : tail.successors = [] := congrArg Prod.snd hlast
  -- 4 is in the last region and goes to 1
  obtain ⟨_, hregion, hmem⟩ := (hreflect 2 1 (by decide)).2 ⟨4, 1, by decide,
    ⟨tail, htail, by simp [hlastNodes]⟩, ⟨head, hhead, by simp [hheadNodes]⟩⟩
  rw [htail] at hregion
  obtain rfl := Option.some.inj hregion
  rw [hlastSuccessors] at hmem
  exact List.not_mem_nil hmem

end ThreadRegionsBuilder

end Cape.ThreadRegions
