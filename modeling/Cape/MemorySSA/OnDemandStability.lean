import Cape.MemorySSA.OnDemandExact

/-!
# Later queries

`answer_stable`: what a use was answered once it is answered again after any queries.
`mem_iff_mem_of_fieldWise`: for fields, it does not matter either what was asked before.
-/

set_option autoImplicit false

namespace Cape.MemorySSA

open Cape.Library Cape.Library.ReachingDefinitions

universe u v w

variable {N : Type u} {B : Type v} {S : Type w}

namespace Transformation

variable {G : ReadWriteGraph (RWNode N) B S} [DecidableEq N] {s t u : Transformation N B}

/-- What was found stays: the operands of PHI nodes, and the definitions of uses. -/
structure Keeps (s t : Transformation N B) : Prop where
  knows : ∀ x, s.Known x → t.Known x
  operands : ∀ x, s.Known x → t.operands x = s.operands x
  defuse : ∀ n defs, s.defuse (.node n) = some defs → t.defuse (.node n) = some defs

omit [DecidableEq N] in
theorem Keeps.refl (s : Transformation N B) : s.Keeps s := ⟨fun _ h => h, fun _ _ => rfl, fun _ _ h => h⟩

omit [DecidableEq N] in
theorem Keeps.trans (h : s.Keeps t) (h' : t.Keeps u) : s.Keeps u where
  knows := fun x hx => h'.knows x (h.knows x hx)
  operands := fun x hx => (h'.operands x (h.knows x hx)).trans (h.operands x hx)
  defuse := fun n defs hdefs => h'.defuse n defs (h.defuse n defs hdefs)

theorem Grows.keeps (h : s.Grows t) : s.Keeps t where
  knows := fun _ hx => h.knows hx
  operands := fun _ hx => h.operands_eq hx
  defuse := by
    intro n defs hdefs
    rw [h.defuse _ (known_node s n)]
    exact hdefs

/-- The definitions of a use that had none come in. -/
theorem keeps_addDefUse {x : RWNode N} (hphi : x.isPhi = false) (hnone : s.defuse x = none)
    (defs : List (RWNode N)) : s.Keeps (s.addDefUse x defs) where
  knows := fun _ hy => ⟨hy.phi, hy.mu⟩
  operands := by
    intro y _
    cases y with
    | node n => rfl
    | mu i => rfl
    | phi i =>
        show ((s.addDefUse x defs).defuse (.phi i)).getD [] = (s.defuse (.phi i)).getD []
        rw [addDefUse_of_ne]
        rintro rfl
        exact Bool.noConfusion hphi
  defuse := by
    intro n defs' hdefs
    rw [addDefUse_of_ne]
    · exact hdefs
    · rintro rfl
      rw [hnone] at hdefs
      cases hdefs

variable [DecidableEq B] [DecidableEq S]

theorem Settled.keeps_getDefinitions (h : s.Settled G) {x : RWNode N} (hx : s.Known x)
    (hphi : x.isPhi = false) {targets : List (Memory (RWNode N))} {fuel : Nat}
    {result : List (RWNode N)}
    (hrun : Transformation.getDefinitions G targets fuel x s = some (t, result)) :
    s.Keeps t ∧ ∃ defs, t.defuse x = some defs ∧ result = t.gatherNonPhisDefs defs := by
  rw [Transformation.getDefinitions] at hrun
  cases hdefs : s.defuse x with
  | some defs =>
      rw [hdefs] at hrun
      obtain ⟨rfl, rfl⟩ := Prod.mk.inj (Option.some.inj hrun)
      exact ⟨.refl s, defs, hdefs, rfl⟩
  | none =>
      rw [hdefs] at hrun
      obtain ⟨⟨u, found⟩, hfind, heq⟩ := Option.map_eq_some_iff.1 hrun
      obtain ⟨rfl, rfl⟩ := Prod.mk.inj heq
      have hgrows := (extends_findDefinitions h.shape hfind).grows
      have hnone : u.defuse x = none := by
        rw [hgrows.defuse x hx, hdefs]
      have hsome : (u.addDefUse x found).defuse x =
          some (((u.addDefUse x found).defuse x).getD []) := by
        rw [Transformation.addDefUse]
        dsimp only
        rw [Function.update_self]
        rfl
      exact ⟨hgrows.keeps.trans (keeps_addDefUse hphi hnone found), _, hsome, rfl⟩

theorem Settled.keeps_query (h : s.Settled G) {targets : List (Memory (RWNode N))} {fuel : Nat}
    {q : Query N} {result : List (RWNode N)} (hrun : q.answer G targets fuel s = some (t, result)) :
    s.Keeps t := by
  cases q with
  | use n => exact (h.keeps_getDefinitions (known_node s n) rfl hrun).1
  | bytes n ds =>
      obtain ⟨⟨u, use⟩, hinsert, hrun⟩ := Option.bind_eq_some_iff.1 hrun
      obtain ⟨hextends, b, hmu⟩ := extends_insertUse h.shape hinsert
      have hmore := ((h.of_extends hextends).keeps_getDefinitions hmu.known hmu.isPhi hrun).1
      exact hextends.grows.keeps.trans hmore

end Transformation

/-! ## Runs -/

section Runs

variable [DecidableEq N] [DecidableEq B] [DecidableEq S]

/-- A query leads from the one state to the other. -/
def Asks (G : ReadWriteGraph (RWNode N) B S) (s t : Transformation N B) : Prop :=
  ∃ q targets fuel found, Query.answer G targets fuel s q = some (t, found)

namespace Transformation

variable {G : ReadWriteGraph (RWNode N) B S} {s t u : Transformation N B}

theorem Settled.keeps_of_asks (h : s.Settled G) (hasks : Relation.ReflTransGen (Asks G) s t) :
    t.Settled G ∧ s.Keeps t := by
  induction hasks with
  | refl => exact ⟨h, .refl s⟩
  | tail _ hstep ih =>
      obtain ⟨q, targets, fuel, found, hrun⟩ := hstep
      exact ⟨(ih.1.query hrun).1, ih.2.trans (ih.1.keeps_query hrun)⟩

omit [DecidableEq B] [DecidableEq S] in
/-- The nodes behind what was found stay the same. -/
theorem Settled.mem_gatherNonPhisDefs_iff (h : s.Settled G) (h' : t.Settled G) (hkeeps : s.Keeps t)
    {defs : List (RWNode N)} (hdefs : ∀ x ∈ defs, s.Known x) {a : RWNode N} :
    a ∈ t.gatherNonPhisDefs defs ↔ a ∈ s.gatherNonPhisDefs defs := by
  rw [h.shape.mem_gatherNonPhisDefs, h'.shape.mem_gatherNonPhisDefs,
    leads_congr hdefs (fun x _ => h.closed x) hkeeps.operands]

/-- **Answers are stable.** A use of known memory that was asked for once is answered with the same nodes
whatever was asked meanwhile; no new search is made for it. -/
theorem answer_stable (hG : CallFree G) {asked : Query N → Prop} (h : Reached G asked s)
    {targets : List (Memory (RWNode N))} {fuel : Nat} {n : N} {result : List (RWNode N)}
    (hknown : G.usesUnknown (.node n) = false)
    (hrun : (Query.use n).answer G targets fuel s = some (t, result))
    (hlater : Relation.ReflTransGen (Asks G) t u) (targets' : List (Memory (RWNode N)))
    (fuel' : Nat) :
    ∃ result', (Query.use n).answer G targets' fuel' u = some (u, result') ∧
      ∀ a, a ∈ result' ↔ a ∈ result := by
  have hsettled := settled_of_reached hG h
  obtain ⟨-, defs, hdefs, rfl⟩ := hsettled.keeps_getDefinitions (known_node s n) rfl hrun
  have ht := (hsettled.query hrun).1
  -- later queries keep the definitions of the use, and the operands of all PHI nodes behind them
  obtain ⟨hu, hkeeps⟩ := ht.keeps_of_asks hlater
  refine ⟨u.gatherNonPhisDefs defs, ?_, fun a => ?_⟩
  · rw [Query.answer, getDefinitions, hkeeps.defuse n defs hdefs]
  · exact ht.mem_gatherNonPhisDefs_iff hu hkeeps (ht.found n defs hdefs hknown)

end Transformation

end Runs

/-! ## The loop -/

/-- Asked twice for the same bytes, and for the use in between. -/
theorem asks_loopGraph : ∃ t u found,
    (Query.use 2).answer loopGraph [] 10 (.initial loopGraph) = some (t, [.node 3, .node 1]) ∧
      (Query.bytes 2 ⟨.node (.node 9), 0, 4⟩).answer loopGraph [] 10 t = some (u, found) := by
  obtain ⟨t, ht⟩ := answer_loopGraph
  have hsome : (((Query.use 2).answer loopGraph [] 10 (.initial loopGraph)).bind fun answer =>
      ((Query.bytes 2 ⟨.node (.node 9), 0, 4⟩).answer loopGraph [] 10 answer.1)).isSome = true := by
    decide
  rw [ht] at hsome
  obtain ⟨⟨u, found⟩, hu⟩ := Option.isSome_iff_exists.1 hsome
  exact ⟨t, u, found, ht, hu⟩

theorem answer_stable_loopGraph : ∃ u result,
    (Query.use 2).answer loopGraph [] 20 u = some (u, result) ∧
      ∀ a, a ∈ result ↔ a ∈ [RWNode.node 3, .node 1] := by
  obtain ⟨t, u, found, ht, hu⟩ := asks_loopGraph
  have hreached : Reached loopGraph (fun _ => True) (.initial loopGraph) := .initial
  obtain ⟨result, hresult⟩ := Transformation.answer_stable callFree_loopGraph hreached rfl ht
    (.single ⟨_, _, _, _, hu⟩) [] 20
  exact ⟨u, result, hresult⟩

namespace Transformation

variable {G : ReadWriteGraph (RWNode N) B S} [DecidableEq N] [DecidableEq B] [DecidableEq S]
variable {F : Memory (RWNode N) → DiscreteInterval → Prop} {s s' t t' : Transformation N B}

/-- **The order of queries does not matter** for queries of fields: after any two sequences of them, a
query returns the same nodes, up to writers of unknown memory. -/
theorem mem_iff_mem_of_fieldWise (hG : CallFree G) (hF : FieldWise G F)
    (h : Reached G (Query.OfFields G F) s) (h' : Reached G (Query.OfFields G F) s')
    {targets targets' : List (Memory (RWNode N))} {fuel fuel' : Nat} {q : Query N}
    (hq : q.OfFields G F) {result result' : List (RWNode N)}
    (hrun : q.answer G targets fuel s = some (t, result))
    (hrun' : q.answer G targets' fuel' s' = some (t', result'))
    (hknown : ∀ ds ∈ q.sites G, ds.target ≠ .unknown) {b : B}
    (hb : G.getBBlock (.node q.place) = some b) {a : RWNode N}
    (ha : ¬ (G.annotations a).WritesUnknown) : a ∈ result ↔ a ∈ result' := by
  have hmore : ∀ {s s' t t' targets targets' fuel fuel' result result'},
      Reached G (Query.OfFields G F) s → Reached G (Query.OfFields G F) s' →
        q.answer G targets fuel s = some (t, result) →
          q.answer G targets' fuel' s' = some (t', result') → a ∈ result → a ∈ result' := by
    intro s s' t t' targets targets' fuel fuel' result result' h h' hrun hrun' hmem
    -- what the one answer has reaches the place, and so the other answer has it, too
    obtain ⟨hnode, hreaching | hwrites⟩ := reaching_of_mem hG hF h hq hrun hknown hb hmem
    · obtain ⟨d, rfl⟩ := RWNode.exists_of_isNode hnode
      exact mem_of_reaching hG hF h' hq hrun' hknown hb hreaching
    · exact absurd hwrites.1 ha
  exact ⟨hmore h h' hrun hrun', hmore h' h hrun' hrun⟩

end Transformation

theorem ofFields_bytes_loopGraph :
    (Query.bytes 2 ⟨.node (.node 9), 0, 4⟩).OfFields loopGraph firstBytes := by
  intro _ ds hds
  rw [List.mem_singleton.1 hds]
  exact ⟨rfl, by decide⟩

/-- The bytes that node 2 reads, asked for at the start, or when the use has been asked. -/
theorem mem_iff_mem_of_fieldWise_loopGraph : ∃ s t t' result result',
    (Query.use 2).answer loopGraph [] 10 (.initial loopGraph) = some (s, [.node 3, .node 1]) ∧
      (Query.bytes 2 ⟨.node (.node 9), 0, 4⟩).answer loopGraph [] 10 (.initial loopGraph) =
        some (t, result) ∧
      (Query.bytes 2 ⟨.node (.node 9), 0, 4⟩).answer loopGraph [] 10 s = some (t', result') ∧
      (RWNode.node 1 ∈ result ↔ .node 1 ∈ result') := by
  obtain ⟨s, t', result', hs, ht'⟩ := asks_loopGraph
  have hsome : ((Query.bytes 2 ⟨.node (.node 9), 0, 4⟩).answer loopGraph [] 10
      (.initial loopGraph)).isSome = true := by
    decide
  obtain ⟨⟨t, result⟩, ht⟩ := Option.isSome_iff_exists.1 hsome
  have hasked : Reached loopGraph (Query.OfFields loopGraph firstBytes) s :=
    .query .initial ofFields_loopGraph hs
  refine ⟨s, t, t', result, result', hs, ht, ht', ?_⟩
  refine Transformation.mem_iff_mem_of_fieldWise callFree_loopGraph fieldWise_loopGraph .initial hasked
    ofFields_bytes_loopGraph ht ht' ?_ rfl ?_
  · intro ds hds
    rw [List.mem_singleton.1 hds]
    intro heq
    cases heq
  · have hdefs : ∀ ds ∈ (loopGraph.annotations (.node 1)).defs, ds.target ≠ .unknown := by decide
    rintro ⟨ds, hds, heq⟩
    exact hdefs ds hds heq

end Cape.MemorySSA
