import Cape.Library.FinLiterals
import Cape.MemorySSA.OnDemandFields

/-!
# Exact answers

Queries of fields, in any order. `exact_of_fieldWise`: the answer has exactly the nodes that define a
byte in question and reach the place, and maybe nodes that write to unknown memory and reach it.
-/

set_option autoImplicit false

namespace Cape.MemorySSA

open Cape.Library Cape.Library.ReachingDefinitions

universe u v w

variable {N : Type u} {B : Type v} {S : Type w}
variable (G : ReadWriteGraph (RWNode N) B S) (F : Memory (RWNode N) → DiscreteInterval → Prop)

/-- A query that reads unknown memory, or one of fields. -/
def Query.OfFields (q : Query N) : Prop :=
  (∀ ds ∈ q.sites G, ds.target ≠ .unknown) → ∀ ds ∈ q.sites G, F ds.target ds.getInterval

/-- The node defines a byte that the query is about, and reaches the place. -/
def Query.Reaching [DecidableEq N] (q : Query N) (b : B) (d : RWNode N) : Prop :=
  ∃ ds ∈ q.sites G, ∃ c ∈ ds.getInterval, (G.annotations d).Defines ds.target c ∧
    Reaches (G.Kills ds.target c) G.getNodes G.predecessors d b (G.nodesBefore b q.place)

namespace Transformation

variable {G F} [DecidableEq N]

section Use

variable [DecidableEq B] {s t : Transformation N B}

theorem Processes.fieldExtends (hF : FieldWise G F) (hrun : Processes G s t) (h : s.Shape G)
    (hfields : s.FieldShape G F) : s.FieldExtends G F t := by
  induction hrun with
  | refl => exact .refl h hfields
  | tail _ hstep ih =>
      obtain ⟨b, rfl⟩ := hstep
      exact ih.trans (fieldExtends_getBBlockDefinitions hF ih.whole.shape ih.shape b)

/-- A MU node comes before a node of the graph. -/
theorem fieldExtends_insertUse (h : s.Shape G) (hfields : s.FieldShape G F) {n : N}
    {ds : DefSite (RWNode N)} {use : RWNode N}
    (hrun : insertUse G (.node n) ds s = some (t, use)) : s.FieldExtends G F t := by
  obtain ⟨hextends, -⟩ := extends_insertUse h hrun
  obtain ⟨b, -, rfl, -⟩ := withUse_of_insertUse hrun
  refine .of_length hextends ⟨fun b' D hD => ?_, hfields.phis, fun i hi => ?_⟩ rfl
  · exact (hfields.blocks b' D hD).mono hextends.grows
  · exact hfields.unplaced i fun b' hb' => hi b' (hextends.grows.nodes b' hb')

variable [DecidableEq S]

/-- The definitions of a use of fields. -/
theorem fieldExtends_findDefinitions (hF : FieldWise G F) {targets : List (Memory (RWNode N))}
    {fuel : Nat} {use : RWNode N} {found : List (RWNode N)} (h : s.Shape G)
    (hfields : s.FieldShape G F) (hsites : s.usesUnknown G use = false →
      ∀ ds ∈ (s.getAnnotations G use).uses, F ds.target ds.getInterval)
    (hrun : findDefinitions G targets fuel use s = some (t, found)) :
    s.FieldExtends G F t ∧ (s.usesUnknown G use = false → ∀ b, s.getBBlock G use = some b →
      ∀ x ∈ found, ∃ ds ∈ (s.getAnnotations G use).uses,
        t.SentAt G ds.target ds.getInterval x b (s.before b use)) := by
  cases hknown : s.usesUnknown G use with
  | true =>
      refine ⟨?_, fun hfalse => absurd hfalse.symm Bool.false_ne_true⟩
      exact (processes_findDefinitions_unknown hknown hrun).fieldExtends hF h hfields
  | false =>
      rw [findDefinitions] at hrun
      cases hb : s.getBBlock G use with
      | none =>
          rw [hb, hknown] at hrun
          obtain ⟨rfl, -⟩ := Prod.mk.inj (Option.some.inj hrun)
          exact ⟨.refl h hfields, fun _ b hb' => absurd hb'.symm (Option.some_ne_none b)⟩
      | some b =>
          rw [hb] at hrun
          dsimp only at hrun
          rw [hknown, if_neg Bool.false_ne_true] at hrun
          have hplace := h.placeRight_before b use
          have hfield : s.FieldPlace G F b (s.before b use) (findDefinitionsInBlock G s b use) := by
            obtain ⟨P, R, hfirst⟩ := h.phisFirst b
            exact fieldPlace_number hF hfirst hfields.phis (List.takeWhile_prefix _)
          have hright := loop_sent (p := (s, [])) (q := (t, found))
            (Q := fun t x => ∃ ds ∈ (s.getAnnotations G use).uses,
              t.SentAt G ds.target ds.getInterval x b (s.before b use))
            (fun hgrows hx => hx.imp fun _ hds => hds.imp_right hgrows.sentAt)
            (fun ds hds mid mid' hmid hstep => ?_) h hfields hrun
          · refine ⟨hright.1, fun _ b' hb' x hx => ?_⟩
            obtain rfl := Option.some.inj hb'
            exact (hright.2 x hx).resolve_left List.not_mem_nil
          · obtain ⟨hextends, hfound⟩ :=
              (searchSent_findDefinitionsAt hF fuel).addUncoveredFromPredecessors hF
                (searchRight_findDefinitionsAt fuel) hplace hfield hmid.whole.shape hmid.shape
                (hsites hknown ds hds) (show _ = some (mid'.1, mid'.2) from hstep)
            refine ⟨hextends, fun x hx => ?_⟩
            obtain hx | hx := hfound x hx
            · obtain hx | hx := List.mem_append.1 hx
              · exact Or.inl hx
              · refine Or.inr ⟨ds, hds, ?_⟩
                exact hfield.sentAt hplace (hmid.whole.grows.trans hextends.whole.grows)
                  (hsites hknown ds hds) hx
            · exact Or.inr ⟨ds, hds, hx⟩

end Use

/-! ## Runs -/

section Runs

variable [DecidableEq B] [DecidableEq S] {s t : Transformation N B}

variable (G F) in
/-- What holds between queries, field by field. -/
structure FieldSettled (s : Transformation N B) : Prop where
  settled : s.Settled G
  shape : s.FieldShape G F
  precise : ∀ i, s.PrecisePhi G i
  uses : ∀ n defs b, s.defuse (.node n) = some defs → G.getBBlock (.node n) = some b →
    G.usesUnknown (.node n) = false → ∀ x ∈ defs, ∃ ds ∈ G.getUses (.node n),
      s.SentAt G ds.target ds.getInterval x b (G.nodesBefore b n)

omit [DecidableEq B] [DecidableEq S] in
theorem FieldSettled.of_extends (h : s.FieldSettled G F) (hextends : s.FieldExtends G F t) :
    t.FieldSettled G F where
  settled := h.settled.of_extends hextends.whole
  shape := hextends.shape
  precise := by
    intro i
    -- it was there before, or it was created on the way
    obtain hlt | hge := Nat.lt_or_ge i s.phis.length
    · exact hextends.whole.grows.precisePhi hlt (h.precise i)
    · exact hextends.precise i hge
  uses := by
    intro n defs b hdefs hb hknown x hx
    rw [hextends.whole.grows.defuse _ (known_node s n)] at hdefs
    obtain ⟨ds, hds, hsent⟩ := h.uses n defs b hdefs hb hknown x hx
    exact ⟨ds, hds, hextends.whole.grows.sentAt hsent⟩

omit [DecidableEq B] [DecidableEq S] in
/-- The definitions of a use that is no PHI node come in. -/
theorem FieldSettled.addDefUse (h : s.FieldSettled G F) {x : RWNode N} (hphi : x.isPhi = false)
    {defs : List (RWNode N)} (hsettled : (s.addDefUse x defs).Settled G)
    (huse : ∀ n b, x = .node n → G.getBBlock (.node n) = some b → G.usesUnknown (.node n) = false →
      ∀ y ∈ ((s.addDefUse x defs).defuse x).getD [], ∃ ds ∈ G.getUses (.node n),
        s.SentAt G ds.target ds.getInterval y b (G.nodesBefore b n)) :
    (s.addDefUse x defs).FieldSettled G F where
  settled := hsettled
  shape :=
    { blocks := by
        intro b D hD
        have hplace := h.shape.blocks b D hD
        exact ⟨hplace.kills, hplace.passes, hplace.own, hplace.has⟩
      phis := h.shape.phis
      unplaced := by
        intro i hi
        rw [addDefUse_of_ne]
        · exact h.shape.unplaced i hi
        · rintro rfl
          exact Bool.noConfusion hphi }
  precise := by
    intro i b hb m I hat y hy
    have hy : y ∈ ((s.addDefUse x defs).defuse (.phi i)).getD [] := hy
    rw [addDefUse_of_ne] at hy
    · exact h.precise i b hb m I hat y hy
    · rintro rfl
      exact Bool.noConfusion hphi
  uses := by
    intro n defs' b hdefs hb hknown y hy
    by_cases hn : x = .node n
    · subst hn
      refine huse n b rfl hb hknown y ?_
      rw [hdefs]
      exact hy
    · rw [addDefUse_of_ne _ (Ne.symm hn)] at hdefs
      exact h.uses n defs' b hdefs hb hknown y hy

/-- The first query of a use of fields. -/
theorem FieldSettled.getDefinitions (hF : FieldWise G F) (h : s.FieldSettled G F) {x : RWNode N}
    (hx : s.Known x) (hphi : x.isPhi = false) (hnone : s.defuse x = none)
    (hsites : s.usesUnknown G x = false →
      ∀ ds ∈ (s.getAnnotations G x).uses, F ds.target ds.getInterval)
    {targets : List (Memory (RWNode N))} {fuel : Nat} {result : List (RWNode N)}
    (hrun : getDefinitions G targets fuel x s = some (t, result)) :
    t.FieldSettled G F ∧ ∃ defs, result = t.gatherNonPhisDefs defs ∧
      (s.usesUnknown G x = false → ∀ b, s.getBBlock G x = some b → ∀ y ∈ defs,
        ∃ ds ∈ (s.getAnnotations G x).uses,
          t.SentAt G ds.target ds.getInterval y b (s.before b x)) := by
  obtain ⟨hsettled, -⟩ := h.settled.getDefinitions hx hphi hnone hrun
  rw [Transformation.getDefinitions, hnone] at hrun
  obtain ⟨⟨u, found⟩, hfind, heq⟩ := Option.map_eq_some_iff.1 hrun
  obtain ⟨rfl, rfl⟩ := Prod.mk.inj heq
  obtain ⟨hextends, hfound⟩ :=
    fieldExtends_findDefinitions hF h.settled.shape h.shape hsites hfind
  have hnone' : u.defuse x = none := (hextends.whole.grows.defuse x hx).trans hnone
  -- the use gets what was found, and nothing else
  have honly : ∀ y ∈ ((u.addDefUse x found).defuse x).getD [], y ∈ found := by
    intro y hy
    refine (mem_addDefUse.1 hy).resolve_left ?_
    rw [hnone']
    exact List.not_mem_nil
  refine ⟨(h.of_extends hextends).addDefUse hphi hsettled ?_, _, rfl, fun hknown b hb y hy =>
    hfound hknown b hb y (honly y hy)⟩
  rintro n b rfl hb hknown y hy
  rw [← h.settled.shape.before_node b n]
  exact hfound hknown b hb y (honly y hy)

omit [DecidableEq B] [DecidableEq S] in
theorem fieldSettled_initial (hG : CallFree G) : (initial G).FieldSettled G F where
  settled := settled_initial hG
  shape := ⟨nofun, nofun, fun _ _ => rfl⟩
  precise := by
    intro i b hb
    exact absurd (hG.nodes b _ hb) Bool.false_ne_true
  uses := nofun

/-- What a query of fields does. -/
theorem FieldSettled.query (hF : FieldWise G F) (h : s.FieldSettled G F)
    {targets : List (Memory (RWNode N))} {fuel : Nat} {q : Query N} (hq : q.OfFields G F)
    {result : List (RWNode N)} (hrun : q.answer G targets fuel s = some (t, result)) :
    t.FieldSettled G F ∧ ∃ defs, result = t.gatherNonPhisDefs defs ∧
      ((∀ ds ∈ q.sites G, ds.target ≠ .unknown) → ∀ b, G.getBBlock (.node q.place) = some b →
        ∀ x ∈ defs, ∃ ds ∈ q.sites G,
          t.SentAt G ds.target ds.getInterval x b (G.nodesBefore b q.place)) := by
  cases q with
  | use n =>
      have hunknown : G.usesUnknown (.node n) = false ↔
          ∀ ds ∈ G.getUses (.node n), ds.target ≠ .unknown := by
        simp [ReadWriteGraph.usesUnknown]
      cases hdefs : s.defuse (.node n) with
      | none =>
          obtain ⟨hsettled, defs, rfl, hfound⟩ := h.getDefinitions hF (known_node s n) rfl hdefs
            (fun hknown => hq (hunknown.1 hknown)) (show _ = some (t, result) from hrun)
          refine ⟨hsettled, defs, rfl, fun hknown b hb x hx => ?_⟩
          rw [Query.place, ← h.settled.shape.before_node b n]
          exact hfound (hunknown.2 hknown) b hb x hx
      | some defs =>
          have hrun : some (s, s.gatherNonPhisDefs defs) = some (t, result) := by
            rw [← hrun, Query.answer, Transformation.getDefinitions, hdefs]
          obtain ⟨rfl, rfl⟩ := Prod.mk.inj (Option.some.inj hrun)
          refine ⟨h, defs, rfl, fun hknown b hb x hx => ?_⟩
          exact h.uses n defs b hdefs hb (hunknown.2 hknown) x hx
  | bytes n ds =>
      obtain ⟨⟨u, use⟩, hinsert, hrun⟩ := Option.bind_eq_some_iff.1 hrun
      have hfields := fieldExtends_insertUse h.settled.shape h.shape hinsert
      obtain ⟨-, b, hmu⟩ := extends_insertUse h.settled.shape hinsert
      obtain ⟨hsettled, defs, rfl, hfound⟩ := (h.of_extends hfields).getDefinitions hF hmu.known
        hmu.isPhi hmu.defuse
        (fun hknown => by rw [hmu.uses]; exact hq (hmu.usesUnknown_iff.1 hknown)) hrun
      refine ⟨hsettled, defs, rfl, fun hknown b' hb' x hx => ?_⟩
      obtain rfl : b = b' := Option.some.inj (hmu.place.symm.trans hb')
      rw [Query.place, ← hmu.before]
      have hsent := hfound (hmu.usesUnknown_iff.2 hknown) b hmu.getBBlock x hx
      rw [hmu.uses] at hsent
      exact hsent

theorem fieldSettled_of_reached (hG : CallFree G) (hF : FieldWise G F)
    (h : Reached G (Query.OfFields G F) s) : s.FieldSettled G F := by
  induction h with
  | initial => exact fieldSettled_initial hG
  | query _ hq hrun ih => exact (ih.query hF hq hrun).1

end Runs

end Transformation

/-! ## Answers -/

/-- A node that defines the last offset only together with others defines another byte, too. -/
theorem Annotations.Defines.exists_ne {A : Annotations (RWNode N)} {ds : DefSite (RWNode N)}
    {t : Memory (RWNode N)} {c : Offset} (hc : c ∈ ds.getInterval) (h : A.Defines t c) :
    ∃ c' ∈ ds.getInterval, c' ≠ .unknown ∧ A.Defines t c' := by
  have hsite : ∀ ds' : DefSite (RWNode N), c ∈ ds'.getInterval →
      ∃ c' ∈ ds.getInterval, c' ≠ .unknown ∧ c' ∈ ds'.getInterval := by
    intro ds' hc'
    obtain hle | hle := le_total ds.getInterval.start ds'.getInterval.start
    · exact ⟨_, ⟨hle, hc'.1.trans hc.2⟩, ds'.start_ne_unknown, le_refl _, ds'.start_le_stop⟩
    · exact ⟨_, ⟨le_refl _, ds.start_le_stop⟩, ds.start_ne_unknown, hle, hc.1.trans hc'.2⟩
  obtain ⟨ds', hds', hknown, rfl, hc'⟩ | ⟨ds', hds', rfl, hc'⟩ := h
  · obtain ⟨c', hmem, hne, hmem'⟩ := hsite ds' hc'
    exact ⟨c', hmem, hne, Or.inl ⟨ds', hds', hknown, rfl, hmem'⟩⟩
  · obtain ⟨c', hmem, hne, hmem'⟩ := hsite ds' hc'
    exact ⟨c', hmem, hne, Or.inr ⟨ds', hds', rfl, hmem'⟩⟩

namespace Transformation

variable {G F} [DecidableEq N] [DecidableEq B] [DecidableEq S] {s t : Transformation N B}

omit [DecidableEq B] [DecidableEq S] in
/-- Which byte of a field is looked at does not matter. -/
theorem reaches_congr (hF : FieldWise G F) {m : Memory (RWNode N)} {I : DiscreteInterval} (hI : F m I)
    {c c' : Offset} (hc : c ∈ I) (hc' : c' ∈ I) {d : RWNode N} {b : B} {n : N}
    (h : Reaches (G.Kills m c) G.getNodes G.predecessors d b (G.nodesBefore b n)) :
    Reaches (G.Kills m c') G.getNodes G.predecessors d b (G.nodesBefore b n) :=
  h.congr (fun _ _ hq => hF.kills_iff hI hc hc' hq) (List.takeWhile_sublist _).subset

variable {targets : List (Memory (RWNode N))} {fuel : Nat} {q : Query N} {result : List (RWNode N)}

theorem mem_of_reaching (hG : CallFree G) (hF : FieldWise G F)
    (h : Reached G (Query.OfFields G F) s) (hq : q.OfFields G F)
    (hrun : q.answer G targets fuel s = some (t, result))
    (hknown : ∀ ds ∈ q.sites G, ds.target ≠ .unknown) {b : B}
    (hb : G.getBBlock (.node q.place) = some b) {d : N} (hd : q.Reaching G b (.node d)) :
    .node d ∈ result := by
  have hsettled := ((fieldSettled_of_reached hG hF h).query hF hq hrun).1
  obtain ⟨-, defs, rfl, hanswers⟩ := (settled_of_reached hG h).query hrun
  have hown := hsettled.shape.ownBytes
  obtain ⟨ds, hds, c, hc, hdefines, hreach⟩ := hd
  -- another byte of the field serves for the unknown offset: paths are clear for all of them or for none
  obtain ⟨c', hc', hne, hdefines'⟩ := hdefines.exists_ne hc
  exact hsettled.settled.mem_gatherNonPhisDefs hown hne (hanswers hown hknown b hb ds hds c' hc' hne)
    rfl hdefines' (reaches_congr hF (hq hknown ds hds) hc hc' hreach)

theorem reaching_of_mem (hG : CallFree G) (hF : FieldWise G F)
    (h : Reached G (Query.OfFields G F) s) (hq : q.OfFields G F)
    (hrun : q.answer G targets fuel s = some (t, result))
    (hknown : ∀ ds ∈ q.sites G, ds.target ≠ .unknown) {b : B}
    (hb : G.getBBlock (.node q.place) = some b) {a : RWNode N} (ha : a ∈ result) :
    a.isNode = true ∧ (q.Reaching G b a ∨ ((G.annotations a).WritesUnknown ∧ ∃ ds ∈ q.sites G,
      Reaches (G.Kills ds.target ds.getInterval.start) G.getNodes G.predecessors a b
        (G.nodesBefore b q.place))) := by
  obtain ⟨hsettled, defs, rfl, hsent⟩ := (fieldSettled_of_reached hG hF h).query hF hq hrun
  obtain ⟨hphi, x, hx, hpath⟩ := hsettled.settled.shape.mem_gatherNonPhisDefs.1 ha
  obtain ⟨ds, hds, hx⟩ := hsent hknown b hb x hx
  have hstart : ds.getInterval.start ∈ ds.getInterval := ⟨le_refl _, ds.start_le_stop⟩
  -- along the operands of PHI nodes, what was sent into the search came on a clear path
  have hreaches := Sent.reaches_of_leads ?_ ?_ hpath hx ?_
  · obtain ⟨⟨hnode, hdefines | hwrites⟩, hreach⟩ := hreaches
    · obtain ⟨c, hc, hdefines⟩ := hdefines
      refine ⟨hnode, Or.inl ⟨ds, hds, c, hc, hdefines, ?_⟩⟩
      exact reaches_congr hF (hq hknown ds hds) hstart hc hreach
    · exact ⟨hnode, Or.inr ⟨hwrites, ds, hds, hreach⟩⟩
  · rintro b' y ⟨i, rfl, hphi', hmem | ⟨-, hnone⟩⟩ z hz
    · exact hsettled.precise i b' hmem _ _ hphi' z hz
    · -- a PHI node for the input of the procedure has no operands
      have hz : z ∈ (t.defuse (.phi i)).getD [] := hz
      rw [hsettled.shape.unplaced i hnone] at hz
      exact absurd hz List.not_mem_nil
  · rintro y ⟨hnode, -⟩
    obtain ⟨n, rfl⟩ := RWNode.exists_of_isNode hnode
    rfl
  · rintro b' ⟨i, rfl, -⟩
    exact Bool.noConfusion hphi

/-- **Answers for fields are exact**, whatever was asked before. All nodes that define a byte in question
and reach the place are there; every other node writes to unknown memory and reaches the place. -/
theorem exact_of_fieldWise (hG : CallFree G) (hF : FieldWise G F)
    (h : Reached G (Query.OfFields G F) s) (hq : q.OfFields G F)
    (hrun : q.answer G targets fuel s = some (t, result))
    (hknown : ∀ ds ∈ q.sites G, ds.target ≠ .unknown) {b : B}
    (hb : G.getBBlock (.node q.place) = some b) :
    (∀ d, q.Reaching G b (.node d) → .node d ∈ result) ∧
      ∀ x ∈ result, x.isNode = true ∧ (q.Reaching G b x ∨
        ((G.annotations x).WritesUnknown ∧ ∃ ds ∈ q.sites G,
          Reaches (G.Kills ds.target ds.getInterval.start) G.getNodes G.predecessors x b
            (G.nodesBefore b q.place))) :=
  ⟨fun _ hd => mem_of_reaching hG hF h hq hrun hknown hb hd,
    fun _ hx => reaching_of_mem hG hF h hq hrun hknown hb hx⟩

end Transformation

/-! ## A loop -/

/-- Block 1 is behind block 0 and behind block 2, and both write the bytes that it reads. -/
def loopGraph : ReadWriteGraph (RWNode Nat) (Fin 3) Unit where
  getDefines _ := []
  getOverwrites x := if x = .node 1 ∨ x = .node 3 then [⟨.node (.node 9), 0, 4⟩] else []
  getUses x := if x = .node 2 then [⟨.node (.node 9), 0, 4⟩] else []
  getCallees _ := none
  canEscape _ := false
  getBBlock x :=
    if x = .node 1 then some 0
    else if x = .node 2 then some 1
    else if x = .node 3 then some 2
    else none
  getNodes b :=
    if b = 0 then [.node 1]
    else if b = 1 then [.node 2]
    else [.node 3]
  predecessors b :=
    if b = 0 then []
    else if b = 1 then [0, 2]
    else [1]
  getSubgraph _ := ()
  bblocks _ := [0, 1, 2]
  call_alone := fun _ _ _ _ hcallees => absurd hcallees (by simp)

theorem callFree_loopGraph : CallFree loopGraph where
  nodes := by
    intro b x hx
    simp only [loopGraph] at hx
    split_ifs at hx
    · rw [List.mem_singleton.1 hx]
      rfl
    · rw [List.mem_singleton.1 hx]
      rfl
    · rw [List.mem_singleton.1 hx]
      rfl
  calls := by
    intro b
    rw [ReadWriteGraph.getCall]
    split
    · rfl
    · rfl
  placed := by
    intro n b hb
    simp only [loopGraph] at hb ⊢
    split_ifs at hb with h1 h2 h3
    · obtain rfl := Option.some.inj hb
      simp [h1]
    · obtain rfl := Option.some.inj hb
      simp [h2]
    · obtain rfl := Option.some.inj hb
      simp [h3]

/-- The first four bytes of the memory 9. -/
def firstBytes (t : Memory (RWNode Nat)) (I : DiscreteInterval) : Prop :=
  t = .node (.node 9) ∧ I = ⟨0, 3⟩

theorem fieldWise_loopGraph : FieldWise loopGraph firstBytes where
  apart := by
    rintro t I J ⟨-, rfl⟩ ⟨-, rfl⟩ c - -
    rfl
  overwrites := by
    intro b x _ ds hds
    simp only [loopGraph] at hds
    split_ifs at hds
    · rw [List.mem_singleton.1 hds]
      exact ⟨rfl, by decide⟩
    · exact absurd hds List.not_mem_nil

theorem ofFields_loopGraph : (Query.use 2).OfFields loopGraph firstBytes := by
  intro _ ds hds
  have hds : ds ∈ [(⟨.node (.node 9), 0, 4⟩ : DefSite (RWNode Nat))] := hds
  rw [List.mem_singleton.1 hds]
  exact ⟨rfl, by decide⟩

theorem known_loopGraph : ∀ ds ∈ (Query.use 2).sites loopGraph, ds.target ≠ .unknown := by
  intro ds hds
  have hds : ds ∈ [(⟨.node (.node 9), 0, 4⟩ : DefSite (RWNode Nat))] := hds
  rw [List.mem_singleton.1 hds]
  exact nofun

theorem answer_loopGraph : ∃ t, (Query.use 2).answer loopGraph [] 10 (.initial loopGraph) =
    some (t, [.node 3, .node 1]) := by
  have hsome : ((Query.use 2).answer loopGraph [] 10 (.initial loopGraph)).map Prod.snd =
      some [.node 3, .node 1] := by
    decide
  obtain ⟨⟨t, result⟩, ht, rfl⟩ := Option.map_eq_some_iff.1 hsome
  exact ⟨t, ht⟩

/-- Both writes reach the read. -/
theorem exact_of_fieldWise_loopGraph :
    (∀ d, (Query.use 2).Reaching loopGraph 1 (.node d) → RWNode.node d ∈ [.node 3, .node 1]) ∧
      ∀ x ∈ [RWNode.node 3, .node 1], x.isNode = true ∧ ((Query.use 2).Reaching loopGraph 1 x ∨
        ((loopGraph.annotations x).WritesUnknown ∧ ∃ ds ∈ (Query.use 2).sites loopGraph,
          Reaches (loopGraph.Kills ds.target ds.getInterval.start) loopGraph.getNodes
            loopGraph.predecessors x 1 (loopGraph.nodesBefore 1 2))) := by
  obtain ⟨t, ht⟩ := answer_loopGraph
  exact Transformation.exact_of_fieldWise callFree_loopGraph fieldWise_loopGraph .initial
    ofFields_loopGraph ht known_loopGraph rfl

end Cape.MemorySSA
