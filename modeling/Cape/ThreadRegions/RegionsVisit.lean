import Cape.Library.DepthFirst
import Cape.Library.FinishingOrder
import Cape.ThreadRegions.ThreadRegionsBuilder

/-!
# The search for thread regions

What the input alone says about regions is `Founding`: the root founds a region, and every node that
`shouldCreateNewRegion` accepts for one of its callers. A node that founds none has one edge into it.

`finishing` lists the finished nodes and below them the stack. The search puts nodes into it and
never moves one, so what it says about the order of two nodes stays. `Explored` is what holds between
any two steps of the search; `visit_explored` is the run.
-/

set_option autoImplicit false

namespace Cape.ThreadRegions

open Cape.Library

variable {Node : Type}

section Founding

variable (graph : ThreadFlowGraph Node) (root : Node)

/-- The nodes that found a region. -/
def Founding (node : Node) : Prop :=
  node = root ∨ ∃ caller, graph.Edge caller node ∧ shouldCreateNewRegion graph caller node = true

variable {graph root}

theorem shouldCreateNewRegion_eq_false {caller node : Node}
    (h : shouldCreateNewRegion graph caller node = false) :
    graph.getType node ≠ .entry ∧ graph.getType node ≠ .join ∧
      graph.predecessorsNumber node ≤ 1 := by
  simp only [shouldCreateNewRegion, Bool.or_eq_false_iff, decide_eq_false_iff_not, not_lt] at h
  obtain ⟨⟨⟨_, hentry⟩, hjoin⟩, hle⟩ := h
  exact ⟨fun heq => by simp [heq] at hentry, fun heq => by simp [heq] at hjoin, hle⟩

theorem not_founding_types {caller node : Node} (h : ¬ Founding graph root node)
    (hedge : graph.Edge caller node) : graph.getType node ≠ .entry ∧
      graph.getType node ≠ .join ∧ graph.predecessorsNumber node ≤ 1 := by
  have hnot : shouldCreateNewRegion graph caller node ≠ true :=
    fun hcreate => h (Or.inr ⟨caller, hedge, hcreate⟩)
  exact shouldCreateNewRegion_eq_false (Bool.eq_false_iff.2 hnot)

/-- A node that founds no region has one edge into it. -/
theorem caller_unique {caller caller' node : Node} (h : ¬ Founding graph root node)
    (hedge : graph.Edge caller node) (hedge' : graph.Edge caller' node) : caller = caller' := by
  obtain ⟨hentry, hjoin, hle⟩ := not_founding_types h hedge
  exact ThreadFlowGraph.eq_of_edge_of_edge hentry hjoin hle hedge hedge'

/-- Every caller of a node other than the root gives the same answer. -/
theorem founding_iff {caller node : Node} (hedge : graph.Edge caller node) (hne : node ≠ root) :
    Founding graph root node ↔ shouldCreateNewRegion graph caller node = true := by
  constructor
  · rintro (heq | ⟨caller', hedge', hcreate⟩)
    · exact absurd heq hne
    · by_contra hnot
      rw [Bool.not_eq_true] at hnot
      obtain ⟨hentry, hjoin, hle⟩ := shouldCreateNewRegion_eq_false hnot
      have heq := ThreadFlowGraph.eq_of_edge_of_edge hentry hjoin hle hedge hedge'
      rw [heq, hcreate] at hnot
      exact Bool.noConfusion hnot
  · exact fun h => Or.inr ⟨caller, hedge, h⟩

end Founding

namespace ThreadRegionsBuilder

/-- The finished nodes in the order in which they were finished, then the stack from its top. -/
def finishing (builder : ThreadRegionsBuilder Node) : List Node :=
  (builder.examinedNodeToRegionMap.map Prod.fst).reverse ++
    builder.visitedNodeToRegionMap.map Prod.fst

def founder (builder : ThreadRegionsBuilder Node) (region : Nat) : Option Node :=
  builder.threadRegions[region]?.map ThreadRegion.foundingNode

def HasSuccessor (builder : ThreadRegionsBuilder Node) (region successor : Nat) : Prop :=
  ∃ r, builder.threadRegions[region]? = some r ∧ successor ∈ r.successors

section Regions

variable {builder : ThreadRegionsBuilder Node} {region successor r s : Nat} {node : Node}

theorem lt_of_founder (h : builder.founder r = some node) : r < builder.threadRegions.length := by
  obtain ⟨_, hget, _⟩ := Option.map_eq_some_iff.1 h
  exact (List.getElem?_eq_some_iff.1 hget).1

theorem founder_newRegion : (builder.newRegion node).founder r =
    if r = builder.threadRegions.length then some node else builder.founder r := by
  simp only [founder, newRegion]
  split
  · next heq => simp [heq]
  · next hne =>
      rcases lt_or_gt_of_ne hne with hlt | hgt
      · rw [List.getElem?_append_left hlt]
      · rw [List.getElem?_eq_none (by simp; omega), List.getElem?_eq_none (by omega)]

theorem hasSuccessor_newRegion :
    (builder.newRegion node).HasSuccessor r s ↔ builder.HasSuccessor r s := by
  simp only [HasSuccessor, newRegion]
  rcases lt_trichotomy r builder.threadRegions.length with hlt | heq | hgt
  · rw [List.getElem?_append_left hlt]
  · subst heq
    simp
  · rw [List.getElem?_eq_none (by simp; omega), List.getElem?_eq_none (by omega)]

@[simp] theorem founder_addSuccessor :
    (builder.addSuccessor region successor).founder r = builder.founder r := by
  simp only [founder, addSuccessor, List.getElem?_modify, Option.map_eq_map, Option.map_map]
  congr 1
  funext entry
  simp only [Function.comp]
  split <;> split <;> rfl

theorem hasSuccessor_addSuccessor (hlt : region < builder.threadRegions.length) :
    (builder.addSuccessor region successor).HasSuccessor r s ↔
      builder.HasSuccessor r s ∨ r = region ∧ s = successor := by
  simp only [HasSuccessor, addSuccessor, List.getElem?_modify, Option.map_eq_map, Option.map_map,
    Option.map_eq_some_iff, Function.comp]
  constructor
  · rintro ⟨_, ⟨entry, hget, rfl⟩, hmem⟩
    have hmem : s ∈ (if region = r then { entry with
        successors := entry.successors.insert successor } else entry).successors := by
      split at hmem <;> exact hmem
    split at hmem
    · next heq =>
        rcases List.mem_insert_iff.1 hmem with h | h
        · exact Or.inr ⟨heq.symm, h⟩
        · exact Or.inl ⟨entry, hget, h⟩
    · exact Or.inl ⟨entry, hget, hmem⟩
  · have hkeep : ∀ entry : ThreadRegion Node, ∀ x ∈ (if region = r then { entry with
        successors := entry.successors.insert successor } else entry).successors,
        x ∈ (if successor = r then
          { (if region = r then { entry with
              successors := entry.successors.insert successor } else entry) with
            predecessors := (if region = r then { entry with
              successors := entry.successors.insert successor } else
                entry).predecessors.insert region }
          else (if region = r then { entry with
            successors := entry.successors.insert successor } else entry)).successors := by
      intro entry x hx
      split <;> exact hx
    rintro (⟨entry, hget, hmem⟩ | ⟨rfl, rfl⟩)
    · refine ⟨_, ⟨entry, hget, rfl⟩, hkeep entry s ?_⟩
      split
      · exact List.mem_insert_of_mem hmem
      · exact hmem
    · refine ⟨_, ⟨_, List.getElem?_eq_getElem hlt, rfl⟩, hkeep _ s ?_⟩
      rw [if_pos rfl]
      exact List.mem_insert_self

theorem unpopulated_newRegion (h : ∀ region ∈ builder.threadRegions, region.nodes = []) :
    ∀ region ∈ (builder.newRegion node).threadRegions, region.nodes = [] := by
  intro entry hentry
  rcases List.mem_append.1 hentry with hentry | hentry
  · exact h entry hentry
  · rw [List.mem_singleton.1 hentry]

theorem unpopulated_addSuccessor (h : ∀ region ∈ builder.threadRegions, region.nodes = []) :
    ∀ region' ∈ (builder.addSuccessor region successor).threadRegions, region'.nodes = [] := by
  intro entry hentry
  obtain ⟨i, hi⟩ := List.mem_iff_getElem?.1 hentry
  simp only [addSuccessor, List.getElem?_modify, Option.map_eq_map, Option.map_map,
    Option.map_eq_some_iff, Function.comp] at hi
  obtain ⟨entry', hget, rfl⟩ := hi
  have hnil := h entry' (List.mem_of_getElem? hget)
  split <;> split <;> exact hnil

end Regions

section Maps

variable [DecidableEq Node] {builder : ThreadRegionsBuilder Node} {node x : Node} {r : Nat}

theorem lookup_isSome {map : List (Node × Nat)} :
    (map.lookup x).isSome = true ↔ x ∈ map.map Prod.fst := by
  rw [← Bool.not_eq_false, Option.isSome_eq_false_iff, Option.isNone_iff_eq_none,
    List.lookup_eq_none_iff]
  constructor
  · intro h
    by_contra hnot
    exact h fun entry hentry => by
      simpa using fun heq : x = entry.1 => hnot (heq ▸ List.mem_map_of_mem hentry)
  · intro h hall
    obtain ⟨entry, hentry, rfl⟩ := List.mem_map.1 h
    simpa using hall entry hentry

theorem lookup_eq_none {map : List (Node × Nat)} :
    map.lookup x = none ↔ x ∉ map.map Prod.fst := by
  rw [← lookup_isSome, Bool.not_eq_true, Option.isSome_eq_false_iff, Option.isNone_iff_eq_none]

theorem visited_iff : builder.visited x = true ↔ x ∈ builder.visitedNodeToRegionMap.map Prod.fst :=
  lookup_isSome

theorem examined_iff :
    builder.examined x = true ↔ x ∈ builder.examinedNodeToRegionMap.map Prod.fst :=
  lookup_isSome

omit [DecidableEq Node] in
theorem mem_finishing : x ∈ builder.finishing ↔
    x ∈ builder.examinedNodeToRegionMap.map Prod.fst ∨
      x ∈ builder.visitedNodeToRegionMap.map Prod.fst := by
  simp only [finishing, List.mem_append, List.mem_reverse]

theorem region_eq_none : builder.region x = none ↔ x ∉ builder.finishing := by
  rw [mem_finishing, not_or, ← lookup_eq_none, ← lookup_eq_none]
  simp only [region, regionOfExaminedNode, regionOfVisitedNode]
  split
  · next heq => simp [heq]
  · next heq => simp [heq]

theorem stack_emplaceVisited (h : node ∉ builder.finishing) :
    (builder.emplaceVisited node r).visitedNodeToRegionMap =
      (node, r) :: builder.visitedNodeToRegionMap := by
  rw [mem_finishing, not_or] at h
  simp only [emplaceVisited, emplace, if_neg h.2]

/-- The regions after a node was put on the stack. -/
theorem region_of_push {builder' : ThreadRegionsBuilder Node} (h : node ∉ builder.finishing)
    (hexamined : builder'.examinedNodeToRegionMap = builder.examinedNodeToRegionMap)
    (hvisited : builder'.visitedNodeToRegionMap = (node, r) :: builder.visitedNodeToRegionMap) :
    builder'.region x = if x = node then some r else builder.region x := by
  have hnone := lookup_eq_none.2 fun hmem => h (mem_finishing.2 (Or.inl hmem))
  simp only [region, regionOfExaminedNode, regionOfVisitedNode, hexamined, hvisited,
    List.lookup_cons]
  by_cases heq : x = node
  · subst heq
    simp [hnone]
  · rw [if_neg heq, show (x == node) = false from beq_eq_false_iff_ne.2 heq]

theorem erase_top {stack : List (Node × Nat)} (h : (((node, r) :: stack).map Prod.fst).Nodup) :
    erase ((node, r) :: stack) node = stack := by
  rw [List.map_cons, List.nodup_cons] at h
  rw [erase, List.filter_cons_of_neg (by simp), List.filter_eq_self]
  intro entry hentry
  have hmem := List.mem_map_of_mem (f := Prod.fst) hentry
  simpa using fun heq : entry.1 = node => h.1 (heq ▸ hmem)

end Maps

/-! ## What holds between two steps -/

section Explored

variable [DecidableEq Node] (graph : ThreadFlowGraph Node) (root : Node)

/-- The edge was seen: its target was on the stack then and reaches its source, or it was finished
before the source is, and a successor is recorded where the regions differ. -/
def Handled (builder : ThreadRegionsBuilder Node) (node successor : Node) : Prop :=
  successor ∈ builder.finishing ∧
    (graph.Reaches successor node ∨
      Precedes builder.finishing successor node ∧
        (builder.region successor = builder.region node ∨
          ∃ r s, builder.region node = some r ∧ builder.region successor = some s ∧
            builder.HasSuccessor r s))

structure Explored (builder : ThreadRegionsBuilder Node) : Prop where
  root_mem : root ∈ builder.finishing
  unpopulated : ∀ region ∈ builder.threadRegions, region.nodes = []
  nodup : builder.finishing.Nodup
  path : (builder.visitedNodeToRegionMap.map Prod.fst).IsChain fun x y => graph.Edge y x
  reached : ∀ x ∈ builder.finishing, graph.Reaches root x
  founded : ∀ x ∈ builder.finishing, Founding graph root x →
    ∃ r, builder.region x = some r ∧ builder.founder r = some x
  inherited : ∀ x ∈ builder.finishing, ¬ Founding graph root x →
    ∃ caller, graph.Edge caller x ∧ builder.region x = builder.region caller ∧
      Precedes builder.finishing x caller
  founder_mem : ∀ r f, builder.founder r = some f →
    f ∈ builder.finishing ∧ Founding graph root f ∧ builder.region f = some r
  recorded : ∀ r s, builder.HasSuccessor r s → ∃ node successor, graph.Edge node successor ∧
    builder.region node = some r ∧ builder.region successor = some s ∧
      Precedes builder.finishing successor node
  handled : ∀ node ∈ builder.examinedNodeToRegionMap.map Prod.fst, ∀ successor,
    graph.Edge node successor → Handled graph builder node successor

/-- The later state has put nodes into the order and has recorded successors. -/
structure Extends (builder builder' : ThreadRegionsBuilder Node) : Prop where
  finishing : builder.finishing.Sublist builder'.finishing
  region : ∀ x ∈ builder.finishing, builder'.region x = builder.region x
  hasSuccessor : ∀ r s, builder.HasSuccessor r s → builder'.HasSuccessor r s

variable {graph root} {builder builder' builder'' : ThreadRegionsBuilder Node}

theorem Extends.refl (builder : ThreadRegionsBuilder Node) : Extends builder builder :=
  ⟨List.Sublist.refl _, fun _ _ => rfl, fun _ _ h => h⟩

theorem Extends.trans (h : Extends builder builder') (h' : Extends builder' builder'') :
    Extends builder builder'' where
  finishing := h.finishing.trans h'.finishing
  region x hx := (h'.region x (h.finishing.subset hx)).trans (h.region x hx)
  hasSuccessor r s hrs := h'.hasSuccessor r s (h.hasSuccessor r s hrs)

theorem Handled.mono {node successor : Node} (h : Handled graph builder node successor)
    (hext : Extends builder builder') (hnode : node ∈ builder.finishing) :
    Handled graph builder' node successor := by
  obtain ⟨hmem, hcases⟩ := h
  refine ⟨hext.finishing.subset hmem, hcases.imp_right fun ⟨hprec, hregions⟩ => ?_⟩
  refine ⟨hprec.mono hext.finishing, ?_⟩
  rw [hext.region _ hmem, hext.region _ hnode]
  exact hregions.imp_right fun ⟨r, s, hr, hs, hrs⟩ => ⟨r, s, hr, hs, hext.hasSuccessor r s hrs⟩

/-- The region of a known node has a founding node that is known. -/
theorem Explored.exists_founder (h : Explored graph root builder) {x : Node}
    (hx : x ∈ builder.finishing) : ∃ r f, builder.region x = some r ∧ builder.founder r = some f ∧
      (x = f ∨ Precedes builder.finishing x f) := by
  -- by induction on the number of nodes that stand behind `x`
  induction hn : builder.finishing.length - builder.finishing.idxOf x using Nat.strong_induction_on
    generalizing x with
  | _ n ih =>
      by_cases hfound : Founding graph root x
      · obtain ⟨r, hr, hfounder⟩ := h.founded x hx hfound
        exact ⟨r, x, hr, hfounder, Or.inl rfl⟩
      · obtain ⟨caller, _, hregion, hprec⟩ := h.inherited x hx hfound
        have hlt := hprec.idxOf_lt h.nodup
        have hcaller := List.idxOf_lt_length_iff.2 hprec.mem_right
        obtain ⟨r, f, hr, hfounder, hle⟩ := ih _ (by omega) hprec.mem_right rfl
        refine ⟨r, f, hregion.trans hr, hfounder, Or.inr ?_⟩
        rcases hle with rfl | hle
        · exact hprec
        · exact hprec.trans hle h.nodup

/-- Every node on the stack reaches the top. -/
theorem Explored.reaches_top (h : Explored graph root builder) {top : Node} {r : Nat}
    {stack : List (Node × Nat)} (hstack : builder.visitedNodeToRegionMap = (top, r) :: stack)
    {x : Node} (hx : x ∈ builder.visitedNodeToRegionMap.map Prod.fst) : graph.Reaches x top := by
  have hreaches : (builder.visitedNodeToRegionMap.map Prod.fst).IsChain
      fun x y => graph.Reaches y x := h.path.imp fun _ _ hedge => .single hedge
  have : Trans (fun x y => graph.Reaches y x) (fun x y => graph.Reaches y x)
      (fun x y => graph.Reaches y x) := ⟨fun hxy hyz => Relation.ReflTransGen.trans hyz hxy⟩
  have hpairwise := hreaches.pairwise
  rw [hstack, List.map_cons] at hpairwise hx
  rcases List.mem_cons.1 hx with rfl | hx
  · exact .refl
  · exact List.rel_of_pairwise_cons hpairwise hx

/-- A node is put on the stack. Where it founds a region, that is a new one and a successor of the
region of the node that it is entered from. -/
theorem Explored.push (h : Explored graph root builder) {node successor : Node} {r₀ r : Nat}
    (hnode : node ∈ builder.visitedNodeToRegionMap.map Prod.fst)
    (htop : (successor :: builder.visitedNodeToRegionMap.map Prod.fst).IsChain
      fun x y => graph.Edge y x)
    (hedge : graph.Edge node successor) (hnew : successor ∉ builder.finishing)
    (hr₀ : builder.region node = some r₀)
    (hexamined : builder'.examinedNodeToRegionMap = builder.examinedNodeToRegionMap)
    (hvisited : builder'.visitedNodeToRegionMap = (successor, r) :: builder.visitedNodeToRegionMap)
    (hunpopulated : ∀ region ∈ builder'.threadRegions, region.nodes = [])
    (hinherits : ¬ Founding graph root successor → r = r₀)
    (hfounder : ∀ s x, builder'.founder s = some x ↔ builder.founder s = some x ∨
      Founding graph root successor ∧ s = r ∧ x = successor)
    (hsuccessor : ∀ s t, builder'.HasSuccessor s t ↔ builder.HasSuccessor s t ∨
      Founding graph root successor ∧ s = r₀ ∧ t = r) :
    Explored graph root builder' ∧ Extends builder builder' ∧
      Handled graph builder' node successor := by
  have hfinishing : builder'.finishing = (builder.examinedNodeToRegionMap.map Prod.fst).reverse ++
      successor :: builder.visitedNodeToRegionMap.map Prod.fst := by
    rw [finishing, hexamined, hvisited, List.map_cons]
  have hsub : builder.finishing.Sublist builder'.finishing := by
    rw [hfinishing, finishing]
    exact List.Sublist.append_left (List.sublist_cons_self _ _) _
  have hmem : ∀ x, x ∈ builder'.finishing ↔ x = successor ∨ x ∈ builder.finishing := by
    intro x
    rw [hfinishing, finishing]
    simp only [List.mem_append, List.mem_cons]
    tauto
  have hregion : ∀ x, builder'.region x = if x = successor then some r else builder.region x :=
    fun x => region_of_push hnew hexamined hvisited
  have hold : ∀ x ∈ builder.finishing, builder'.region x = builder.region x := fun x hx => by
    rw [hregion, if_neg fun heq : x = successor => hnew (heq ▸ hx)]
  have hext : Extends builder builder' := ⟨hsub, hold, fun s t hst => (hsuccessor s t).2 (Or.inl hst)⟩
  have hnode' : node ∈ builder.finishing := mem_finishing.2 (Or.inr hnode)
  have hprec : Precedes builder'.finishing successor node := by
    rw [hfinishing]
    exact (precedes_cons_self hnode).mono (List.sublist_append_right _ _)
  have hself : builder'.region successor = some r := by rw [hregion, if_pos rfl]
  refine ⟨?_, hext, ?_⟩
  · -- the new node comes between the examined ones and those on the stack
    constructor
    case root_mem => exact hsub.subset h.root_mem
    case unpopulated => exact hunpopulated
    case nodup =>
      rw [hfinishing]
      exact List.nodup_middle.2 (List.nodup_cons.2 ⟨hnew, h.nodup⟩)
    case path =>
      rw [hvisited]
      exact htop
    case reached =>
      intro x hx
      rcases (hmem x).1 hx with rfl | hx
      · exact (h.reached node hnode').tail hedge
      · exact h.reached x hx
    case founded =>
      intro x hx hfound
      rcases (hmem x).1 hx with rfl | hx
      · exact ⟨r, hself, (hfounder r x).2 (Or.inr ⟨hfound, rfl, rfl⟩)⟩
      · obtain ⟨s, hs, hsf⟩ := h.founded x hx hfound
        exact ⟨s, (hold x hx).trans hs, (hfounder s x).2 (Or.inl hsf)⟩
    case inherited =>
      intro x hx hnot
      rcases (hmem x).1 hx with rfl | hx
      · refine ⟨node, hedge, ?_, hprec⟩
        rw [hself, hold node hnode', hr₀, hinherits hnot]
      · obtain ⟨caller, hcaller, hsame, hbefore⟩ := h.inherited x hx hnot
        refine ⟨caller, hcaller, ?_, hbefore.mono hsub⟩
        rw [hold x hx, hold caller hbefore.mem_right, hsame]
    case founder_mem =>
      intro s f hsf
      rcases (hfounder s f).1 hsf with hsf | ⟨hfound, rfl, rfl⟩
      · obtain ⟨hf, hfound, hs⟩ := h.founder_mem s f hsf
        exact ⟨(hmem _).2 (Or.inr hf), hfound, (hold f hf).trans hs⟩
      · exact ⟨(hmem _).2 (Or.inl rfl), hfound, hself⟩
    case recorded =>
      intro s t hst
      rcases (hsuccessor s t).1 hst with hst | ⟨hfound, rfl, rfl⟩
      · obtain ⟨u, v, huv, hu, hv, hbefore⟩ := h.recorded s t hst
        refine ⟨u, v, huv, ?_, ?_, hbefore.mono hsub⟩
        · rw [hold u hbefore.mem_right, hu]
        · rw [hold v hbefore.mem_left, hv]
      · exact ⟨node, successor, hedge, (hold node hnode').trans hr₀, hself, hprec⟩
    case handled =>
      intro x hx v hv
      rw [hexamined] at hx
      exact (h.handled x hx v hv).mono hext (mem_finishing.2 (Or.inl hx))
  · refine ⟨(hmem _).2 (Or.inl rfl), Or.inr ⟨hprec, ?_⟩⟩
    by_cases hfound : Founding graph root successor
    · exact Or.inr ⟨r₀, r, (hold node hnode').trans hr₀, hself,
        (hsuccessor _ _).2 (Or.inr ⟨hfound, rfl, rfl⟩)⟩
    · exact Or.inl (by rw [hself, hold node hnode', hr₀, hinherits hfound])

/-- A successor is recorded for an edge whose target is finished before its source. -/
theorem Explored.link (h : Explored graph root builder) {node successor : Node} {r s : Nat}
    (hedge : graph.Edge node successor) (hr : builder.region node = some r)
    (hs : builder.region successor = some s)
    (hprec : Precedes builder.finishing successor node) :
    Explored graph root (builder.addSuccessor r s) ∧ Extends builder (builder.addSuccessor r s) ∧
      Handled graph (builder.addSuccessor r s) node successor := by
  have hlt : r < builder.threadRegions.length := by
    obtain ⟨r', f, hr', hf, _⟩ := h.exists_founder hprec.mem_right
    rw [hr] at hr'
    exact Option.some.inj hr' ▸ lt_of_founder hf
  have hsuccessor : ∀ t t', (builder.addSuccessor r s).HasSuccessor t t' ↔
      builder.HasSuccessor t t' ∨ t = r ∧ t' = s := fun t t' => hasSuccessor_addSuccessor hlt
  have hext : Extends builder (builder.addSuccessor r s) :=
    ⟨List.Sublist.refl _, fun _ _ => rfl, fun t t' ht => (hsuccessor t t').2 (Or.inl ht)⟩
  refine ⟨?_, hext, ?_⟩
  · constructor
    case root_mem => exact h.root_mem
    case unpopulated => exact unpopulated_addSuccessor h.unpopulated
    case nodup => exact h.nodup
    case path => exact h.path
    case reached => exact h.reached
    case inherited => exact h.inherited
    case founded =>
      intro x hx hfound
      obtain ⟨t, ht, hf⟩ := h.founded x hx hfound
      exact ⟨t, ht, founder_addSuccessor.trans hf⟩
    case founder_mem =>
      intro t f hf
      exact h.founder_mem t f (founder_addSuccessor.symm.trans hf)
    case recorded =>
      -- the new pair is that of the edge
      intro t t' ht
      rcases (hsuccessor t t').1 ht with ht | ⟨rfl, rfl⟩
      · exact h.recorded t t' ht
      · exact ⟨node, successor, hedge, hr, hs, hprec⟩
    case handled =>
      exact fun x hx v hv => (h.handled x hx v hv).mono hext (mem_finishing.2 (Or.inl hx))
  · exact ⟨hprec.mem_left, Or.inr ⟨hprec, Or.inr ⟨r, s, hr, hs, (hsuccessor r s).2
      (Or.inr ⟨rfl, rfl⟩)⟩⟩⟩

/-- The top of the stack is finished. -/
theorem Explored.pop (h : Explored graph root builder) {node : Node} {r : Nat}
    {stack : List (Node × Nat)} (hstack : builder.visitedNodeToRegionMap = (node, r) :: stack)
    (hhandled : ∀ successor, graph.Edge node successor → Handled graph builder node successor) :
    builder.region node = some r ∧
      Explored graph root (builder.emplaceExamined node r) ∧
      (builder.emplaceExamined node r).visitedNodeToRegionMap = stack ∧
      (builder.emplaceExamined node r).finishing = builder.finishing ∧
      Extends builder (builder.emplaceExamined node r) := by
  have hnodup : ((builder.examinedNodeToRegionMap.map Prod.fst).reverse ++
      node :: stack.map Prod.fst).Nodup := by
    have := h.nodup
    rwa [finishing, hstack, List.map_cons] at this
  -- the order has no node twice, so the top was not examined before
  have hnot : node ∉ builder.examinedNodeToRegionMap.map Prod.fst := by
    intro hmem
    exact (List.nodup_append.1 hnodup).2.2 _ (List.mem_reverse.2 hmem) _ List.mem_cons_self rfl
  have hexamined : (builder.emplaceExamined node r).examinedNodeToRegionMap =
      (node, r) :: builder.examinedNodeToRegionMap := by
    simp only [emplaceExamined, emplace, if_neg hnot]
  have hvisited : (builder.emplaceExamined node r).visitedNodeToRegionMap = stack := by
    simp only [emplaceExamined, hstack]
    exact erase_top (List.nodup_append.1 hnodup).2.1
  have hfinishing : (builder.emplaceExamined node r).finishing = builder.finishing := by
    rw [finishing, hexamined, hvisited, finishing, hstack]
    simp
  have hregion : ∀ x, (builder.emplaceExamined node r).region x = builder.region x := by
    intro x
    simp only [region, regionOfExaminedNode, regionOfVisitedNode, hexamined, hvisited, hstack,
      List.lookup_cons]
    by_cases heq : x = node
    · subst heq
      simp [lookup_eq_none.2 hnot]
    · rw [show (x == node) = false from beq_eq_false_iff_ne.2 heq]
  have hself : builder.region node = some r := by
    simp only [region, regionOfExaminedNode, regionOfVisitedNode, hstack, lookup_eq_none.2 hnot]
    simp
  have hext : Extends builder (builder.emplaceExamined node r) :=
    ⟨hfinishing ▸ List.Sublist.refl _, fun x _ => hregion x, fun _ _ h => h⟩
  -- the node moves from the stack to the examined ones, at its place in the order
  refine ⟨hself, ?_, hvisited, hfinishing, hext⟩
  constructor
  case root_mem => exact hfinishing ▸ h.root_mem
  case unpopulated => exact h.unpopulated
  case nodup =>
    rw [hfinishing]
    exact h.nodup
  case path =>
    have hpath := h.path
    rw [hstack, List.map_cons] at hpath
    rw [hvisited]
    exact hpath.tail
  case reached =>
    rw [hfinishing]
    exact h.reached
  case founded =>
    rw [hfinishing]
    intro x hx hfound
    obtain ⟨t, ht, hf⟩ := h.founded x hx hfound
    exact ⟨t, (hregion x).trans ht, hf⟩
  case inherited =>
    rw [hfinishing]
    intro x hx hnot
    obtain ⟨caller, hcaller, hsame, hprec⟩ := h.inherited x hx hnot
    exact ⟨caller, hcaller, by rw [hregion, hregion, hsame], hprec⟩
  case founder_mem =>
    rw [hfinishing]
    intro t f hf
    obtain ⟨hmem, hfound, ht⟩ := h.founder_mem t f hf
    exact ⟨hmem, hfound, (hregion f).trans ht⟩
  case recorded =>
    rw [hfinishing]
    intro t t' ht
    obtain ⟨u, v, huv, hu, hv, hprec⟩ := h.recorded t t' ht
    exact ⟨u, v, huv, (hregion u).trans hu, (hregion v).trans hv, hprec⟩
  case handled =>
    intro x hx v hv
    rw [hexamined, List.map_cons] at hx
    rcases List.mem_cons.1 hx with rfl | hx
    · exact (hhandled v hv).mono hext (by rw [finishing, hstack]; simp)
    · exact (h.handled x hx v hv).mono hext (mem_finishing.2 (Or.inl hx))

end Explored

/-! ## The run -/

section Run

variable [DecidableEq Node] {graph : ThreadFlowGraph Node} {root : Node}
  {builder : ThreadRegionsBuilder Node}

theorem examinedRegion_iff {region : Option Nat} : builder.examinedRegion region = true ↔
    ∃ r f, region = some r ∧ builder.founder r = some f ∧ builder.examined f = true := by
  simp only [examinedRegion, founder]
  cases region with
  | none => simp
  | some r => cases hget : builder.threadRegions[r]? with
      | none => simp [hget]
      | some entry => simp [hget]

/-- A node that is entered with the region that `successorRegion` gives it. -/
theorem Explored.enter (h : Explored graph root builder) {node successor : Node} {r : Nat}
    {stack : List (Node × Nat)} (hstack : builder.visitedNodeToRegionMap = (node, r) :: stack)
    (hedge : graph.Edge node successor) (hnew : successor ∉ builder.finishing) :
    ∃ builder₁ r₁, builder.successorRegion graph node successor = some (builder₁, r₁) ∧
      (builder₁.emplaceVisited successor r₁).visitedNodeToRegionMap =
        (successor, r₁) :: builder.visitedNodeToRegionMap ∧
      Explored graph root (builder₁.emplaceVisited successor r₁) ∧
      Extends builder (builder₁.emplaceVisited successor r₁) ∧
      Handled graph (builder₁.emplaceVisited successor r₁) node successor ∧
      (builder₁.emplaceVisited successor r₁).finishing.Perm (successor :: builder.finishing) := by
  have hne : successor ≠ root := fun heq => hnew (heq ▸ h.root_mem)
  have hnode : node ∈ builder.visitedNodeToRegionMap.map Prod.fst := by simp [hstack]
  obtain ⟨r₀, f, hr₀, hf, _⟩ := h.exists_founder (mem_finishing.2 (Or.inr hnode))
  have htop : (successor :: builder.visitedNodeToRegionMap.map Prod.fst).IsChain
      fun x y => graph.Edge y x := by
    have hpath := h.path
    rw [hstack, List.map_cons] at hpath ⊢
    exact List.IsChain.cons_cons hedge hpath
  -- whichever region the node gets, it is the only new one in the order
  have hperm : ∀ builder' : ThreadRegionsBuilder Node,
      builder'.examinedNodeToRegionMap = builder.examinedNodeToRegionMap →
      builder'.visitedNodeToRegionMap.map Prod.fst =
        successor :: builder.visitedNodeToRegionMap.map Prod.fst →
      builder'.finishing.Perm (successor :: builder.finishing) := by
    intro builder' hexamined hvisited
    rw [finishing, hexamined, hvisited]
    exact List.perm_middle
  cases hcreate : shouldCreateNewRegion graph node successor with
  | true =>
      have hfound := (founding_iff hedge hne).2 hcreate
      have hvisited : (((builder.newRegion successor).addSuccessor r₀
          builder.threadRegions.length).emplaceVisited successor
            builder.threadRegions.length).visitedNodeToRegionMap =
          (successor, builder.threadRegions.length) :: builder.visitedNodeToRegionMap :=
        stack_emplaceVisited (show successor ∉ finishing ((builder.newRegion successor).addSuccessor
          r₀ builder.threadRegions.length) from hnew)
      have hexamined : (((builder.newRegion successor).addSuccessor r₀
          builder.threadRegions.length).emplaceVisited successor
            builder.threadRegions.length).examinedNodeToRegionMap =
          builder.examinedNodeToRegionMap := rfl
      have hlt : r₀ < (builder.newRegion successor).threadRegions.length := by
        rw [newRegion, List.length_append]
        exact lt_of_lt_of_le (lt_of_founder hf) (Nat.le_add_right _ _)
      have hnone : builder.founder builder.threadRegions.length = none := by simp [founder]
      obtain ⟨hexplored, hext, hhandled⟩ := h.push hnode htop hedge hnew hr₀ hexamined hvisited
        (unpopulated_addSuccessor (unpopulated_newRegion h.unpopulated))
        (fun hnot => absurd hfound hnot)
        (fun s x => by
          show ((builder.newRegion successor).addSuccessor r₀ _).founder s = some x ↔ _
          rw [founder_addSuccessor, founder_newRegion]
          split
          · next heq =>
              rw [heq, hnone]
              simp [hfound, eq_comm]
          · next hne => simp [hne])
        (fun s t => by
          show ((builder.newRegion successor).addSuccessor r₀ _).HasSuccessor s t ↔ _
          rw [hasSuccessor_addSuccessor hlt, hasSuccessor_newRegion]
          simp [hfound])
      refine ⟨_, _, ?_, hvisited, hexplored, hext, hhandled, hperm _ rfl ?_⟩
      · simp [successorRegion, hr₀, hcreate]
      · rw [hvisited]
        rfl
  | false =>
      have hnot : ¬ Founding graph root successor := by
        rw [founding_iff hedge hne, hcreate]
        exact Bool.false_ne_true
      have hvisited := stack_emplaceVisited (r := r₀) hnew
      have hexamined : (builder.emplaceVisited successor r₀).examinedNodeToRegionMap =
          builder.examinedNodeToRegionMap := rfl
      obtain ⟨hexplored, hext, hhandled⟩ := h.push hnode htop hedge hnew hr₀ hexamined hvisited
        h.unpopulated (fun _ => rfl)
        (fun s x => (or_iff_left fun hand => hnot hand.1).symm)
        (fun s t => (or_iff_left fun hand => hnot hand.1).symm)
      refine ⟨_, _, ?_, hvisited, hexplored, hext, hhandled, hperm _ rfl ?_⟩
      · simp [successorRegion, hr₀, hcreate]
      · rw [hvisited]
        rfl

/-- What `visit` of a node does: the node leaves the stack, everything it goes to was seen, and a
node that founds no region became known together with the node before it. -/
structure Visited (graph : ThreadFlowGraph Node) (root node : Node) (stack : List (Node × Nat))
    (builder builder' : ThreadRegionsBuilder Node) : Prop where
  explored : Explored graph root builder'
  stack : builder'.visitedNodeToRegionMap = stack
  extended : Extends builder builder'
  inside : ∀ x ∈ builder'.finishing, x ∉ builder.finishing → ¬ Founding graph root x →
    ∀ caller, graph.Edge caller x → caller = node ∨ caller ∉ builder.finishing

variable [Fintype Node]

/-- What a recursion of `depth` is enough for. -/
def VisitsAll (graph : ThreadFlowGraph Node) (root : Node) (depth : Nat) : Prop :=
  ∀ (node : Node) (r : Nat) (stack : List (Node × Nat)) (builder : ThreadRegionsBuilder Node),
    Explored graph root builder → builder.visitedNodeToRegionMap = (node, r) :: stack →
    (∀ x, graph.Edge node x → ¬ Founding graph root x → x ∉ builder.finishing) →
    (Finset.univ.filter (· ∉ builder.finishing)).card < depth →
    ∃ builder', visit graph depth node builder = some builder' ∧
      Visited graph root node stack builder builder'

/-- One edge of the loop. A node that founds no region is not known when its edge is seen. -/
theorem visitSuccessor_explored {depth : Nat} (hvisit : VisitsAll graph root depth)
    (h : Explored graph root builder) {node successor : Node} {r : Nat}
    {stack : List (Node × Nat)} (hstack : builder.visitedNodeToRegionMap = (node, r) :: stack)
    (hedge : graph.Edge node successor)
    (hfresh : ¬ Founding graph root successor → successor ∉ builder.finishing)
    (hdepth : (Finset.univ.filter (· ∉ builder.finishing)).card ≤ depth) :
    ∃ builder', visitSuccessor graph (visit graph depth) node builder successor = some builder' ∧
      Explored graph root builder' ∧
      builder'.visitedNodeToRegionMap = builder.visitedNodeToRegionMap ∧
      Extends builder builder' ∧ Handled graph builder' node successor ∧
      ∀ x ∈ builder'.finishing, x ∉ builder.finishing → ¬ Founding graph root x →
        x = successor ∨ ∀ caller, graph.Edge caller x → caller ∉ builder.finishing := by
  have hnode : node ∈ builder.visitedNodeToRegionMap.map Prod.fst := by simp [hstack]
  simp only [visitSuccessor]
  by_cases hvisited : builder.visited successor = true
  · -- the target is on the stack
    rw [if_pos hvisited]
    have hmem := visited_iff.1 hvisited
    exact ⟨builder, rfl, h, rfl, Extends.refl _,
      ⟨mem_finishing.2 (Or.inr hmem), Or.inl (h.reaches_top hstack hmem)⟩,
      fun x hx hnot => absurd hx hnot⟩
  rw [if_neg hvisited]
  rw [visited_iff] at hvisited
  obtain ⟨r₀, f₀, hr₀, _, _⟩ := h.exists_founder (mem_finishing.2 (Or.inr hnode))
  by_cases hexamined : builder.examinedRegion (builder.region successor) = true
  · -- the region of the target is finished
    rw [if_pos hexamined]
    obtain ⟨s, f, hs, _, _⟩ := examinedRegion_iff.1 hexamined
    have hmem : successor ∈ builder.finishing := by
      by_contra hnot
      simp [region_eq_none.2 hnot] at hs
    have hprec : Precedes builder.finishing successor node :=
      precedes_append (List.mem_reverse.2 ((mem_finishing.1 hmem).resolve_right hvisited)) hnode
    obtain ⟨hexplored, hext, hhandled⟩ := h.link hedge hr₀ hs hprec
    refine ⟨builder.addSuccessor r₀ s, by simp [hr₀, hs], hexplored, rfl, hext, hhandled, ?_⟩
    exact fun x hx hnot => absurd hx hnot
  · -- the target was not seen before
    rw [if_neg hexamined]
    have hnew : successor ∉ builder.finishing := by
      intro hmem
      by_cases hfound : Founding graph root successor
      · obtain ⟨s, hs, hf⟩ := h.founded successor hmem hfound
        exact hexamined (examinedRegion_iff.2 ⟨s, successor, hs, hf,
          examined_iff.2 ((mem_finishing.1 hmem).resolve_right hvisited)⟩)
      · exact hfresh hfound hmem
    obtain ⟨builder₁, r₁, hregion, hpushed, hexplored, hext, hhandled, hperm⟩ :=
      h.enter hstack hedge hnew
    have hdepth' : (Finset.univ.filter
        (· ∉ (builder₁.emplaceVisited successor r₁).finishing)).card < depth :=
      lt_of_lt_of_le (lt_of_le_of_lt (card_unseen_mono hperm.symm.subset)
        (card_unseen_cons (Finset.mem_univ successor) hnew)) hdepth
    -- a node that founds no region has one caller only, and this one was not seen before
    have hbelow : ∀ x, graph.Edge successor x → ¬ Founding graph root x →
        x ∉ (builder₁.emplaceVisited successor r₁).finishing := by
      intro x hx hnot hmem
      rcases List.mem_cons.1 (hperm.subset hmem) with rfl | hmem
      · obtain ⟨caller, hcaller, _, hprec⟩ := hexplored.inherited x hmem hnot
        rw [caller_unique hnot hcaller hx] at hprec
        exact lt_irrefl _ (hprec.idxOf_lt hexplored.nodup)
      · obtain ⟨caller, hcaller, _, hprec⟩ := h.inherited x hmem hnot
        exact hnew (caller_unique hnot hcaller hx ▸ hprec.mem_right)
    obtain ⟨builder', hrun, hdone⟩ := hvisit successor r₁ _ _ hexplored hpushed hbelow hdepth'
    refine ⟨builder', by rw [hregion]; exact hrun, hdone.explored, hdone.stack,
      hext.trans hdone.extended,
      hhandled.mono hdone.extended (hext.finishing.subset (mem_finishing.2 (Or.inr hnode))), ?_⟩
    intro x hx hnot hfound
    by_cases hx₁ : x ∈ (builder₁.emplaceVisited successor r₁).finishing
    · exact Or.inl ((List.mem_cons.1 (hperm.subset hx₁)).resolve_right hnot)
    · refine Or.inr fun caller hcaller => ?_
      rcases hdone.inside x hx hx₁ hfound caller hcaller with rfl | hnot'
      · exact hnew
      · exact fun hmem => hnot' (hext.finishing.subset hmem)

/-- The loop of `visit`. -/
theorem foldlM_explored {depth : Nat} (hvisit : VisitsAll graph root depth) {node : Node}
    {r : Nat} {stack : List (Node × Nat)} (successors : List Node)
    (hedges : ∀ x ∈ successors, graph.Edge node x)
    (hpairwise : successors.Pairwise fun a b =>
      a = b → graph.getType a = .entry ∨ graph.getType a = .join) :
    ∀ builder, Explored graph root builder → builder.visitedNodeToRegionMap = (node, r) :: stack →
      (∀ x ∈ successors, ¬ Founding graph root x → x ∉ builder.finishing) →
      (Finset.univ.filter (· ∉ builder.finishing)).card ≤ depth →
      ∃ builder', successors.foldlM (visitSuccessor graph (visit graph depth) node) builder =
          some builder' ∧
        Visited graph root node ((node, r) :: stack) builder builder' ∧
        ∀ x ∈ successors, Handled graph builder' node x := by
  induction successors with
  | nil =>
      intro builder h hstack _ _
      exact ⟨builder, rfl, ⟨h, hstack, Extends.refl _, fun x hx hnot => absurd hx hnot⟩,
        fun x hx => absurd hx List.not_mem_nil⟩
  | cons successor successors ih =>
      intro builder h hstack hfresh hdepth
      obtain ⟨hhead, hpairwise⟩ := List.pairwise_cons.1 hpairwise
      have hedge := hedges successor List.mem_cons_self
      obtain ⟨builder₁, hstep, hexplored, hvisited, hext, hhandled, hnewer⟩ :=
        visitSuccessor_explored hvisit h hstack hedge (hfresh successor List.mem_cons_self) hdepth
      have hnode : node ∈ builder.finishing := mem_finishing.2 (Or.inr (by simp [hstack]))
      -- the first edge does not make another target known that founds no region: its caller is the node
      have hfresh₁ : ∀ x ∈ successors, ¬ Founding graph root x → x ∉ builder₁.finishing := by
        intro x hx hnot hmem
        have hedge' := hedges x (List.mem_cons_of_mem _ hx)
        have hold := hfresh x (List.mem_cons_of_mem _ hx) hnot
        rcases hnewer x hmem hold hnot with rfl | hcallers
        · obtain ⟨hentry, hjoin, _⟩ := not_founding_types hnot hedge'
          exact (hhead x hx rfl).elim hentry hjoin
        · exact hcallers node hedge' hnode
      obtain ⟨builder', hrun, hdone, hall⟩ := ih
        (fun x hx => hedges x (List.mem_cons_of_mem _ hx)) hpairwise builder₁ hexplored
        (hvisited.trans hstack) hfresh₁ (le_trans (card_unseen_mono hext.finishing.subset) hdepth)
      refine ⟨builder', ?_, ⟨hdone.explored, hdone.stack, hext.trans hdone.extended, ?_⟩, ?_⟩
      · rw [List.foldlM_cons, hstep]
        exact hrun
      · intro x hx hnot hfound caller hcaller
        by_cases hx₁ : x ∈ builder₁.finishing
        · rcases hnewer x hx₁ hnot hfound with rfl | hcallers
          · exact Or.inl (caller_unique hfound hcaller hedge)
          · exact Or.inr (hcallers caller hcaller)
        · exact (hdone.inside x hx hx₁ hfound caller hcaller).imp_right
            fun hnot' hmem => hnot' (hext.finishing.subset hmem)
      · intro x hx
        rcases List.mem_cons.1 hx with rfl | hx
        · exact hhandled.mono hdone.extended (hext.finishing.subset hnode)
        · exact hall x hx

/-- **The run.** A recursion that is deeper than the number of unknown nodes visits the node. -/
theorem visit_explored : ∀ depth, VisitsAll graph root depth
  | 0 => fun _ _ _ _ _ _ _ hdepth => absurd hdepth (Nat.not_lt_zero _)
  | depth + 1 => by
      intro node r stack builder h hstack hfresh hdepth
      obtain ⟨builder₁, hloop, hdone, hhandled⟩ := foldlM_explored (visit_explored depth)
        (graph.nodeIterator node) (fun _ hx => hx) (ThreadFlowGraph.pairwise_nodeIterator node)
        builder h hstack hfresh (Nat.lt_succ_iff.1 hdepth)
      obtain ⟨hself, hexplored, hpopped, hfinishing, hext⟩ :=
        hdone.explored.pop hdone.stack hhandled
      refine ⟨builder₁.emplaceExamined node r, ?_, hexplored, hpopped,
        hdone.extended.trans hext, ?_⟩
      · simp only [visit, hloop, Option.bind_eq_bind, Option.bind_some, hself]
        rfl
      · rw [hfinishing]
        exact hdone.inside

end Run

end ThreadRegionsBuilder

end Cape.ThreadRegions
