import Cape.Library.FinLiterals
import Cape.SummaryEdges.Computation

/-!
# When the summary edges are right

Every path edge that has been taken is settled: what it leads to is there (`Done`). So the
computation finds every node at which it arrives. When no edge crosses, it finds nothing else
(`Sound`), and no assertion fails.
-/

set_option autoImplicit false

namespace Cape.SummaryEdges

open Library

section

variable {N P C : Type} [DecidableEq N] [DecidableEq C] {G : Graphs N P C}
  {E : Order (N × N)} {O : Order N} {formalToActual : P → N → Option (List (C × N))}

/-! ## All is found -/

/-- What a path edge leads to is there. -/
structure Settled (G : Graphs N P C) (formalToActual : P → N → Option (List (C × N)))
    (s : State N) (e : N × N) : Prop where
  followed : ∀ m ∈ follows G e.1, (m, e.2) ∈ s.edges.seen
  summary : isActualOut G e.1 = true → ∀ a ∈ s.revSummary e.1, (a, e.2) ∈ s.edges.seen
  formalIn : isActualOut G e.1 = false → isFormalIn G e.1 = true →
    ∀ dg outs ins, G.getDG e.2 = some dg → formalToActual dg e.2 = some outs →
      formalToActual dg e.1 = some ins → ∀ c b, (c, b) ∈ outs → ∀ a, ins.lookup c = some a →
        a ∈ s.revSummary b

theorem Settled.mono {s s' : State N} {e : N × N} (h : Settled G formalToActual s e)
    (he : e ∈ s.edges.seen) (hgrows : Grows s s') : Settled G formalToActual s' e := by
  refine ⟨fun m hm => hgrows.edges.seen (h.followed m hm), fun hout a ha => ?_,
    fun hout hin dg outs ins hdg houts hins c b hb a ha => ?_⟩
  · obtain hold | hnew := hgrows.bridged a e.1 ha
    · exact hgrows.edges.seen (h.summary hout a hold)
    · exact hnew e.2 he
  · exact hgrows.summary b (h.formalIn hout hin dg outs ins hdg houts hins c b hb a ha)

theorem handleFormalIn_eq_some {s s' : State N} {e : N × N}
    (h : handleFormalIn G E formalToActual s e = some s') : ∃ dg outs, G.getDG e.2 = some dg ∧
      formalToActual dg e.2 = some outs ∧
      outs.foldlM (bridge E (formalToActual dg e.1)) s = some s' := by
  rw [handleFormalIn] at h
  obtain ⟨_, -, h⟩ := Option.bind_eq_some_iff.1 h
  obtain ⟨dg, hdg, h⟩ := Option.bind_eq_some_iff.1 h
  obtain ⟨_, -, h⟩ := Option.bind_eq_some_iff.1 h
  obtain ⟨outs, houts, h⟩ := Option.bind_eq_some_iff.1 h
  exact ⟨dg, outs, hdg, houts, h⟩

theorem grows_bridges {ins : Option (List (C × N))} {outs : List (C × N)} {s s' : State N}
    (h : outs.foldlM (bridge E ins) s = some s') : Grows s s' ∧
      ∀ it ∈ outs, ∀ l a, ins = some l → l.lookup it.1 = some a → a ∈ s'.revSummary it.2 := by
  refine FallibleLoop.each_done (r := Grows)
    (P := fun (it : C × N) (t : State N) => ∀ l a, ins = some l → l.lookup it.1 = some a →
      a ∈ t.revSummary it.2)
    .refl (fun h h' => h.trans h') (fun h hP l a hl ha => h.summary _ (hP l a hl ha))
    (fun it _ t t' _ ht => ?_) h
  obtain ⟨l, a, hl, ha, rfl⟩ := (bridge_eq_some E).1 ht
  refine ⟨grows_bridge E a it.2 t, fun l' a' hl' ha' => ?_⟩
  obtain rfl := Option.some.inj (hl.symm.trans hl')
  obtain rfl := Option.some.inj (ha.symm.trans ha')
  rw [revSummary_propagateFrom]
  exact mem_update_insert.2 (Or.inl ⟨rfl, rfl⟩)

/-- **What a turn does.** -/
theorem handle_spec {s s' : State N} {e : N × N}
    (h : handle G E O formalToActual s e = some s') :
    Grows s s' ∧ Settled G formalToActual s' e := by
  rw [handle] at h
  by_cases hout : isActualOut G e.1 = true
  · rw [if_pos hout] at h
    obtain rfl := Option.some.inj h
    refine ⟨(grows_propagateAll _ _ _).trans (grows_propagateAll _ _ _), fun m hm => ?_,
      fun _ a ha => ?_, fun hnot => absurd hout (by simp [hnot])⟩
    · rw [follows_of_actualOut hout] at hm
      exact mem_seen_propagateAll.2 (Or.inl (mem_seen_propagateAll.2 (Or.inr ⟨m, hm, rfl⟩)))
    · rw [handleActualOut] at ha
      rw [revSummary_propagateAll, revSummary_propagateAll] at ha
      exact mem_seen_propagateAll.2 (Or.inr ⟨a, (O.mem_toList _ _).2 ha, rfl⟩)
  · rw [if_neg hout] at h
    by_cases hin : isFormalIn G e.1 = true
    · rw [if_pos hin] at h
      obtain ⟨dg, outs, hdg, houts, hfold⟩ := handleFormalIn_eq_some h
      obtain ⟨hgrows, hdone⟩ := grows_bridges hfold
      refine ⟨hgrows, fun m hm => ?_, fun hyes => absurd hyes hout,
        fun _ _ dg' outs' ins hdg' houts' hins c b hb a ha => ?_⟩
      · rw [follows_of_formalIn hout hin] at hm
        cases hm
      · obtain rfl := Option.some.inj (hdg.symm.trans hdg')
        obtain rfl := Option.some.inj (houts.symm.trans houts')
        exact hdone (c, b) hb ins a hins ha
    · -- a generic node: its summary, data and control edges are followed
      rw [if_neg hin] at h
      obtain rfl := Option.some.inj h
      refine ⟨((grows_propagateAll _ _ _).trans (grows_propagateAll _ _ _)).trans
        (grows_propagateAll _ _ _), fun m hm => ?_, fun hyes => absurd hyes hout,
        fun _ hyes => absurd hyes hin⟩
      rw [follows_of_other hout hin] at hm
      rw [handleGenericEdge]
      simp only [mem_seen_propagateAll, Prod.mk.injEq, and_true, exists_eq_right']
      obtain hm | hm := List.mem_append.1 hm
      · obtain hm | hm := List.mem_append.1 hm
        · exact Or.inl (Or.inl (Or.inr hm))
        · exact Or.inl (Or.inr hm)
      · exact Or.inr hm

omit [DecidableEq N] in
theorem pop_eq_some {s s' : State N} {e : N × N} (h : s.pop = some (e, s')) :
    s.edges.pending = e :: s'.edges.pending ∧ s.edges.seen = s'.edges.seen ∧
      s.revSummary = s'.revSummary := by
  obtain ⟨⟨e', w⟩, hpop, heq⟩ := Option.map_eq_some_iff.1 h
  obtain ⟨rfl, rfl⟩ := Prod.mk.inj heq
  obtain ⟨hpending, hseen⟩ := Worklist.pop_eq_some_iff.1 hpop
  exact ⟨hpending, hseen, rfl⟩

omit [DecidableEq N] in
theorem pop_eq_none {s : State N} (h : s.pop = none) : s.edges.pending = [] :=
  Worklist.pop_eq_none_iff.1 (Option.map_eq_none_iff.1 h)

/-- Path edges that are not on the work list are settled. -/
structure Done (G : Graphs N P C) (formalToActual : P → N → Option (List (C × N)))
    (s : State N) : Prop where
  pending_seen : ∀ e ∈ s.edges.pending, e ∈ s.edges.seen
  settled : ∀ e ∈ s.edges.seen, e ∉ s.edges.pending → Settled G formalToActual s e
  starts : ∀ p, ∀ fp ∈ G.formalParams p, (fp.outNode, fp.outNode) ∈ s.edges.seen

/-- **The step lemma.** -/
theorem Done.step {s s' s'' : State N} {e : N × N} (h : Done G formalToActual s)
    (hpop : s.pop = some (e, s')) (hturn : handle G E O formalToActual s' e = some s'') :
    Done G formalToActual s'' := by
  obtain ⟨hpending, hseen, hsummary⟩ := pop_eq_some hpop
  obtain ⟨hgrows, hsettled⟩ := handle_spec hturn
  have hold : ∀ x ∈ s.edges.seen, x ∈ s''.edges.seen := fun x hx =>
    hgrows.edges.seen (hseen ▸ hx)
  refine ⟨fun x hx => ?_, fun x hx hnot => ?_, fun p fp hfp => hold _ (h.starts p fp hfp)⟩
  · obtain hx | hx := hgrows.edges.old x hx
    · exact hold x (h.pending_seen x (hpending ▸ List.mem_cons_of_mem e hx))
    · exact hx
  · by_cases hxe : x = e
    · exact hxe ▸ hsettled
    · have hx : x ∈ s'.edges.seen := (hgrows.edges.new x hx).resolve_right hnot
      have hwas : Settled G formalToActual s x := by
        refine h.settled x (hseen ▸ hx) fun hmem => ?_
        rw [hpending] at hmem
        exact hnot (hgrows.edges.pending x ((List.mem_cons.1 hmem).resolve_left hxe))
      have hwas : Settled G formalToActual s' x := by
        refine ⟨fun m hm => hseen ▸ hwas.followed m hm, fun hout a ha => ?_, ?_⟩
        · exact hseen ▸ hwas.summary hout a (hsummary ▸ ha)
        · exact fun hout hin dg outs ins hdg houts hins c b hb a ha =>
            hsummary ▸ hwas.formalIn hout hin dg outs ins hdg houts hins c b hb a ha
      exact hwas.mono hx hgrows

omit [DecidableEq C] in
theorem initialized_eq : initialized G = ((G.constructedFunctions.flatMap G.formalParams).map
    fun fp => (fp.outNode, fp.outNode)).foldl propagate ⟨⟨∅, []⟩, fun _ => ∅⟩ := by
  rw [List.foldl_map, List.foldl_flatMap]
  rfl

omit [DecidableEq C] in
theorem grows_initialized : Grows ⟨⟨∅, []⟩, fun _ => ∅⟩ (initialized G) := by
  rw [initialized_eq]
  exact grows_foldl_propagate _ _

omit [DecidableEq C] in
theorem mem_seen_initialized {e : N × N} : e ∈ (initialized G).edges.seen ↔
    ∃ p ∈ G.constructedFunctions, ∃ fp ∈ G.formalParams p, e = (fp.outNode, fp.outNode) := by
  rw [initialized_eq, mem_seen_foldl_propagate]
  simp only [Finset.notMem_empty, false_or, List.mem_map, List.mem_flatMap]
  constructor
  · rintro ⟨fp, ⟨p, hp, hfp⟩, rfl⟩
    exact ⟨p, hp, fp, hfp, rfl⟩
  · rintro ⟨p, hp, fp, hfp, rfl⟩
    exact ⟨fp, ⟨p, hp, hfp⟩, rfl⟩

theorem done_initialized (hmem : ∀ p, p ∈ G.constructedFunctions) :
    Done G formalToActual (initialized G) := by
  have hgrows := (grows_initialized (G := G)).edges
  refine ⟨fun e he => ?_, fun e he hnot => ?_, fun p fp hfp => ?_⟩
  · exact (hgrows.old e he).resolve_left List.not_mem_nil
  · exact absurd ((hgrows.new e he).resolve_left (Finset.notMem_empty e)) hnot
  · exact mem_seen_initialized.2 ⟨p, hmem p, fp, hfp, rfl⟩

omit [DecidableEq N] in
theorem lookup_eq_some {l : List (C × N)} {c : C} {a : N} (hmem : (c, a) ∈ l)
    (huniq : ∀ n, (c, n) ∈ l → n = a) : l.lookup c = some a := by
  induction l with
  | nil => cases hmem
  | cons x l ih =>
      obtain ⟨d, n⟩ := x
      rw [List.lookup_cons]
      by_cases hd : c = d
      · subst hd
        rw [beq_self_eq_true, huniq n List.mem_cons_self]
      · rw [beq_eq_false_iff_ne.2 hd]
        refine ih ?_ fun m hm => huniq m (List.mem_cons_of_mem _ hm)
        obtain heq | hmem := List.mem_cons.1 hmem
        · exact absurd (Prod.mk.inj heq).1 hd
        · exact hmem

end

/-! ## On the graphs of the builder -/

section

variable {N P C : Type} [DecidableEq N] {D : DependenceGraphs N P C}

theorem exists_of_isActualOut {n : N} (h : isActualOut D.toGraphs n = true) :
    ∃ c, ∃ ap ∈ D.actuals c, n = ap.outNode := by
  have h : n ∈ actualOutVertices D.toGraphs := of_decide_eq_true h
  rw [actualOutVertices] at h
  simp only [List.mem_flatMap] at h
  obtain ⟨p, -, c, -, hc⟩ := h
  refine ⟨c, ?_⟩
  rw [Graphs.actuals]
  cases hparams : D.callParameters c with
  | none =>
      rw [hparams] at hc
      cases hc
  | some ps =>
      rw [hparams] at hc
      obtain ⟨ap, hap, rfl⟩ := List.mem_map.1 hc
      exact ⟨ap, List.mem_append_left _ hap, rfl⟩

theorem isFormalIn_iff {n : N} : isFormalIn D.toGraphs n = true ↔
    ∃ p, ∃ fp ∈ D.formalParams p, n = fp.inNode := by
  have hmem : isFormalIn D.toGraphs n = true ↔ n ∈ formalInVertices D.toGraphs := decide_eq_true_iff
  rw [hmem]
  rw [formalInVertices]
  simp only [List.mem_flatMap, List.mem_map, D.mem_constructedFunctions, true_and, eq_comm]

theorem isActualOut_formalIn {p : P} {fp : ParameterPair N} (h : fp ∈ D.formalParams p) :
    isActualOut D.toGraphs fp.inNode = false := by
  rw [← Bool.not_eq_true]
  intro hout
  obtain ⟨c, ap, hap, heq⟩ := exists_of_isActualOut hout
  exact D.formalIn_ne_actualOut p fp (Graphs.formals_of_formalParams h) c ap hap heq

/-- An actual-out that no followed edge into crosses is one that the computation knows. -/
theorem isActualOut_of_level {c : C} {p : P} {fp : ParameterPair N} (hp : p ∈ D.getSubgraphs c)
    (hfp : fp ∈ D.formalParams p)
    (hlevel : ∀ m ∈ follows D.toGraphs (D.actual c p fp).outNode,
      ¬ D.Crossing m (D.actual c p fp).outNode) :
    isActualOut D.toGraphs (D.actual c p fp).outNode = true := by
  by_contra hout
  have hfp := Graphs.formals_of_formalParams hfp
  have hin : ¬ isFormalIn D.toGraphs (D.actual c p fp).outNode = true := by
    intro hin
    obtain ⟨q, fq, hfq, heq⟩ := isFormalIn_iff.1 hin
    exact D.formalIn_ne_actualOut q fq (Graphs.formals_of_formalParams hfq) c _
      (D.actual_mem c p hp fp hfp) heq.symm
  -- then it is handled like any other node, and the edge from the formal-out is followed
  refine hlevel fp.outNode ?_ (Or.inl ⟨c, p, hp, Or.inr (Or.inr (Or.inl ⟨fp, hfp, rfl, rfl⟩))⟩)
  rw [follows_of_other hout hin]
  refine List.mem_append_left _ (List.mem_append_right _ ?_)
  exact D.formalOut_actualOut c p hp fp hfp

theorem mem_dependsOn_of_follows {m n : N} (h : m ∈ follows D.toGraphs n) : m ∈ D.dependsOn n := by
  by_cases hout : isActualOut D.toGraphs n = true
  · rw [follows_of_actualOut hout] at h
    exact List.mem_append_left _ (List.mem_append_left _ h)
  · by_cases hin : isFormalIn D.toGraphs n = true
    · rw [follows_of_formalIn hout hin] at h
      cases h
    · rw [follows_of_other hout hin] at h
      exact h

theorem sameLevel_of_arrives {n o : N} (h : Arrives D.toGraphs n o) :
    D.SameLevel D.formalParams n o := by
  induction h with
  | refl n => exact .refl n
  | edge hm hcross _ ih => exact .edge (mem_dependsOn_of_follows hm) hcross ih
  | call hp hfp hfp' _ _ ih ih' => exact .call hp hfp hfp' ih ih'

/-- Only on the way to a formal-in does the computation miss something: the entry. -/
theorem arrives_of_sameLevel {n o : N} (h : D.SameLevel D.formalParams n o) :
    (∃ p, n = D.getEntry p) ∨ Arrives D.toGraphs n o := by
  induction h with
  | refl n => exact Or.inr (.refl n)
  | @edge m n o hm hcross _ ih =>
      obtain ⟨p, rfl⟩ | ih := ih
      · exact absurd (D.entry_crossing p m hm) hcross
      · by_cases hout : isActualOut D.toGraphs n = true
        · refine Or.inr (.edge ?_ hcross ih)
          obtain ⟨c, ap, hap, rfl⟩ := exists_of_isActualOut hout
          rw [follows_of_actualOut hout]
          -- all other edges into an actual-out cross
          rw [Graphs.dependsOn, List.append_assoc] at hm
          obtain hm | hm := List.mem_append.1 hm
          · exact hm
          · exact absurd (D.actualOut_crossing c ap hap m hm) hcross
        · by_cases hin : isFormalIn D.toGraphs n = true
          · obtain ⟨p, fp, hfp, rfl⟩ := isFormalIn_iff.1 hin
            exact Or.inl ⟨p, (D.formalIn_entry p fp hfp m hm).resolve_left hcross⟩
          · refine Or.inr (.edge ?_ hcross ih)
            rw [follows_of_other hout hin]
            exact hm
  | @call c p fp fp' o hp hfp hfp' _ _ ih ih' =>
      obtain ⟨q, hq⟩ | ih := ih
      · exact absurd hq.symm (D.entry_ne_formalIn q p fp (Graphs.formals_of_formalParams hfp))
      · obtain ⟨q, hq⟩ | ih' := ih'
        · refine absurd hq.symm (D.entry_ne_actualOut q c _ (D.actual_mem c p hp fp' ?_))
          exact Graphs.formals_of_formalParams hfp'
        · exact Or.inr (.call hp hfp hfp' ih ih')

theorem summaryEdge_iff {a b : N} : D.SummaryEdge D.formalParams a b ↔
    D.Bridges D.formalParams (Arrives D.toGraphs) a b := by
  constructor
  · refine Graphs.Bridges.mono (fun _ _ h => h) fun p fp hfp n h => ?_
    obtain ⟨q, hq⟩ | h := arrives_of_sameLevel h
    · exact absurd hq.symm (D.entry_ne_formalIn q p fp (Graphs.formals_of_formalParams hfp))
    · exact h
  · exact Graphs.Bridges.mono (fun _ _ h => h) fun _ _ _ _ h => sameLevel_of_arrives h

/-- Where the computation arrives is in the procedure that it started from. -/
theorem getDG_of_arrives {n o : N} {p : P} (h : Arrives D.toGraphs n o)
    (ho : D.getDG o = some p) : D.getDG n = some p ∨ D.getDG n = none := by
  induction h with
  | refl n => exact Or.inl ho
  | @edge m n o hm hcross _ ih =>
      obtain hn | hn := ih ho
      · cases hdg : D.getDG m with
        | none => exact Or.inr rfl
        | some q =>
            refine Or.inl (congrArg some ?_)
            by_contra hne
            exact hcross (Or.inr ⟨q, p, hdg, hn, hne⟩)
      · have hm := mem_dependsOn_of_follows hm
        rw [D.global_source n hn] at hm
        cases hm
  | @call c p' fp fp' o hp hfp hfp' _ _ _ ih' =>
      have hin := (D.getDG_actual c _ (D.actual_mem c p' hp fp
        (Graphs.formals_of_formalParams hfp))).1
      have hout := (D.getDG_actual c _ (D.actual_mem c p' hp fp'
        (Graphs.formals_of_formalParams hfp'))).2
      rw [hin, ← hout]
      exact ih' ho

/-! ## Nothing else is found -/

section

variable [DecidableEq C] {E : Order (N × N)} {O : Order N}
  {formalToActual : P → N → Option (List (C × N))}

/-- The computation has arrived at what it has found. -/
structure Sound (D : DependenceGraphs N P C) (s : State N) : Prop where
  arrives : ∀ n o, (n, o) ∈ s.edges.seen → Arrives D.toGraphs n o
  formalOut : ∀ n o, (n, o) ∈ s.edges.seen → ∃ p, ∃ fp ∈ D.formalParams p, o = fp.outNode
  summary : ∀ a b, a ∈ s.revSummary b → D.Bridges D.formalParams (Arrives D.toGraphs) a b

omit [DecidableEq C] in
theorem Sound.propagate {s : State N} (h : Sound D s) {n o : N} (hn : Arrives D.toGraphs n o)
    (ho : ∃ p, ∃ fp ∈ D.formalParams p, o = fp.outNode) : Sound D (propagate s (n, o)) := by
  refine ⟨fun n' o' he => ?_, fun n' o' he => ?_, h.summary⟩
  · obtain heq | he := mem_seen_propagate.1 he
    · obtain ⟨rfl, rfl⟩ := Prod.mk.inj heq
      exact hn
    · exact h.arrives n' o' he
  · obtain heq | he := mem_seen_propagate.1 he
    · obtain ⟨rfl, rfl⟩ := Prod.mk.inj heq
      exact ho
    · exact h.formalOut n' o' he

omit [DecidableEq C] in
theorem Sound.propagateAll {s : State N} (h : Sound D s) {o : N} {l : List N}
    (hl : ∀ m ∈ l, Arrives D.toGraphs m o) (ho : ∃ p, ∃ fp ∈ D.formalParams p, o = fp.outNode) :
    Sound D (propagateAll o l s) := by
  induction l generalizing s with
  | nil => exact h
  | cons m l ih =>
      refine ih (h.propagate (hl m List.mem_cons_self) ho) fun m' hm' => ?_
      exact hl m' (List.mem_cons_of_mem m hm')

omit [DecidableEq C] in
/-- A summary edge, and the path edges that go on over it. -/
theorem Sound.bridge {s : State N} (h : Sound D s) {a b : N}
    (hbridge : D.Bridges D.formalParams (Arrives D.toGraphs) a b) :
    Sound D (propagateFrom E a b (addSummaryEdge s a b)) := by
  have hadd : Sound D (addSummaryEdge s a b) := by
    refine ⟨h.arrives, h.formalOut, fun c d hc => ?_⟩
    obtain ⟨rfl, rfl⟩ | hc := mem_update_insert.1 hc
    · exact hbridge
    · exact h.summary c d hc
  rw [propagateFrom]
  refine (FallibleLoop.prefix_induction_foldl
    (I := fun _ (t : State N) => Sound D t ∧ s.edges.seen ⊆ t.edges.seen)
    (fun l₁ pe l₂ hl t ht => ?_) ⟨hadd, Finset.Subset.refl _⟩).1
  split
  · next hpe =>
      have hmem : pe ∈ s.edges.seen :=
        (E.mem_toList _ pe).1 (hl ▸ List.mem_append_right l₁ List.mem_cons_self)
      obtain ⟨c, p, hp, fp, hfp, fp', hfp', rfl, rfl, hlevel⟩ := hbridge
      have harrives := h.arrives pe.1 pe.2 hmem
      rw [hpe] at harrives
      exact ⟨ht.1.propagate (.call hp hfp hfp' hlevel harrives) (h.formalOut pe.1 pe.2 hmem),
        ht.2.trans (grows_propagate t _).edges.seen⟩
  · exact ht

/-- **The step lemma.** On level, no assertion fails, and the computation stays sound. -/
theorem exists_handle (hmaps : Maps D.toGraphs formalToActual) (hlevel : StaysOnLevel D.toGraphs)
    {s : State N} (h : Sound D s) {e : N × N} (he : e ∈ s.edges.seen) :
    ∃ s', handle D.toGraphs E O formalToActual s e = some s' ∧ Sound D s' := by
  obtain ⟨n, o⟩ := e
  have hn := h.arrives n o he
  have ho := h.formalOut n o he
  have hnext : ∀ m ∈ follows D.toGraphs n, Arrives D.toGraphs m o := by
    intro m hm
    obtain ⟨p, fp, hfp, rfl⟩ := ho
    exact .edge hm (hlevel p fp hfp n hn m hm) hn
  rw [handle]
  by_cases hout : isActualOut D.toGraphs n = true
  · rw [if_pos hout]
    rw [follows_of_actualOut hout] at hnext
    refine ⟨_, rfl, (h.propagateAll hnext ho).propagateAll (fun a ha => ?_) ho⟩
    obtain ⟨c, p, hp, fp, hfp, fp', hfp', rfl, rfl, hbridge⟩ :=
      h.summary a n ((O.mem_toList _ _).1 ha)
    exact .call hp hfp hfp' hbridge hn
  · rw [if_neg hout]
    by_cases hin : isFormalIn D.toGraphs n = true
    · rw [if_pos hin]
      obtain ⟨q, fp, hfp, rfl⟩ := isFormalIn_iff.1 hin
      obtain ⟨p, fp', hfp', rfl⟩ := ho
      have hfp₀ := (D.getDG_formal q fp (Graphs.formals_of_formalParams hfp)).1
      have hfp₁ := (D.getDG_formal p fp' (Graphs.formals_of_formalParams hfp')).2
      -- the formal-in is one of the same procedure
      obtain rfl : q = p := by
        obtain hdg | hdg := getDG_of_arrives hn hfp₁
        · exact Option.some.inj (hfp₀.symm.trans hdg)
        · cases hfp₀.symm.trans hdg
      obtain ⟨outs, houts, hmemOut⟩ := hmaps.formalOut q fp' hfp'
      obtain ⟨ins, hins, hmemIn⟩ := hmaps.formalIn q fp hfp
      obtain ⟨ps, hps⟩ : ∃ ps, D.getParameters q = some ps := by
        rw [Graphs.formalParams] at hfp
        cases hparams : D.getParameters q with
        | none =>
            rw [hparams] at hfp
            cases hfp
        | some ps => exact ⟨ps, rfl⟩
      obtain ⟨s', hs', hsound⟩ := FallibleLoop.exists_foldlM (I := Sound D) (l := outs)
        (f := bridge E (some ins)) (fun it hit t ht => by
          obtain ⟨hp, hb⟩ := (hmemOut it.1 it.2).1 hit
          have hlookup : ins.lookup it.1 = some (D.actual it.1 q fp).inNode :=
            lookup_eq_some ((hmemIn _ _).2 ⟨hp, rfl⟩) fun n hn => ((hmemIn _ n).1 hn).2
          refine ⟨_, (bridge_eq_some E).2 ⟨ins, _, rfl, hlookup, rfl⟩, ht.bridge ?_⟩
          exact ⟨it.1, q, hp, fp, hfp, fp', hfp', rfl, hb, hn⟩) h
      refine ⟨s', ?_, hsound⟩
      rw [handleFormalIn]
      simp only [hfp₀, hfp₁, hps, houts, hins, Option.bind_eq_bind, Option.bind_some]
      exact hs'
    · rw [if_neg hin]
      rw [follows_of_other hout hin] at hnext
      refine ⟨_, rfl, ((h.propagateAll ?_ ho).propagateAll ?_ ho).propagateAll ?_ ho⟩
      · exact fun m hm => hnext m (List.mem_append_left _ (List.mem_append_left _ hm))
      · exact fun m hm => hnext m (List.mem_append_left _ (List.mem_append_right _ hm))
      · exact fun m hm => hnext m (List.mem_append_right _ hm)

theorem summary_of_settled (hmaps : Maps D.toGraphs formalToActual) {s : State N} {c : C} {p : P}
    {fp fp' : ParameterPair N} (hp : p ∈ D.getSubgraphs c) (hfp : fp ∈ D.formalParams p)
    (hfp' : fp' ∈ D.formalParams p)
    (h : Settled D.toGraphs formalToActual s (fp.inNode, fp'.outNode)) :
    (D.actual c p fp).inNode ∈ s.revSummary (D.actual c p fp').outNode := by
  have hdg := (D.getDG_formal p fp' (Graphs.formals_of_formalParams hfp')).2
  obtain ⟨outs, houts, hmemOut⟩ := hmaps.formalOut p fp' hfp'
  obtain ⟨ins, hins, hmemIn⟩ := hmaps.formalIn p fp hfp
  refine h.formalIn (isActualOut_formalIn hfp) (isFormalIn_iff.2 ⟨p, fp, hfp, rfl⟩) p outs ins hdg
    houts hins c _ ((hmemOut c _).2 ⟨hp, rfl⟩) _ ?_
  exact lookup_eq_some ((hmemIn c _).2 ⟨hp, rfl⟩) fun n hn => ((hmemIn c n).1 hn).2

/-- **Completeness.** -/
theorem mem_seen_of_arrives (hmaps : Maps D.toGraphs formalToActual) {s : State N}
    (hdone : Done D.toGraphs formalToActual s) (hempty : s.edges.pending = [])
    (hlevel : ∀ n o, (n, o) ∈ s.edges.seen → ∀ m ∈ follows D.toGraphs n, ¬ D.Crossing m n)
    {n o : N} (h : Arrives D.toGraphs n o) (ho : (o, o) ∈ s.edges.seen) : (n, o) ∈ s.edges.seen := by
  have hsettled : ∀ e ∈ s.edges.seen, Settled D.toGraphs formalToActual s e := by
    intro e he
    refine hdone.settled e he ?_
    rw [hempty]
    exact List.not_mem_nil
  induction h with
  | refl n => exact ho
  | edge hm _ _ ih => exact (hsettled _ (ih ho)).followed _ hm
  | @call c p fp fp' o hp hfp hfp' _ _ ih ih' =>
      have hbridge := summary_of_settled hmaps hp hfp hfp'
        (hsettled _ (ih (hdone.starts p fp' hfp')))
      have hknown := isActualOut_of_level hp hfp' (hlevel _ o (ih' ho))
      exact (hsettled _ (ih' ho)).summary hknown _ hbridge

omit [DecidableEq C] in
theorem sound_initialized : Sound D (initialized D.toGraphs) := by
  refine ⟨fun n o he => ?_, fun n o he => ?_, fun a b ha => ?_⟩
  · obtain ⟨p, -, fp, -, heq⟩ := mem_seen_initialized.1 he
    obtain ⟨rfl, rfl⟩ := Prod.mk.inj heq
    exact .refl _
  · obtain ⟨p, -, fp, hfp, heq⟩ := mem_seen_initialized.1 he
    exact ⟨p, fp, hfp, (Prod.mk.inj heq).2⟩
  · rw [initialized_eq, revSummary_foldl_propagate] at ha
    exact absurd ha (Finset.notMem_empty a)

/-- What a turn on level keeps. -/
theorem exists_turn (hmaps : Maps D.toGraphs formalToActual) (hlevel : StaysOnLevel D.toGraphs)
    {s s' : State N} {e : N × N} (hsound : Sound D s) (hdone : Done D.toGraphs formalToActual s)
    (hpop : s.pop = some (e, s')) : ∃ s'', handle D.toGraphs E O formalToActual s' e = some s'' ∧
      Sound D s'' ∧ Done D.toGraphs formalToActual s'' := by
  obtain ⟨hpending, hseen, hsummary⟩ := pop_eq_some hpop
  have hsound' : Sound D s' :=
    ⟨fun n o he => hsound.arrives n o (hseen ▸ he), fun n o he => hsound.formalOut n o (hseen ▸ he),
      fun a b ha => hsound.summary a b (hsummary ▸ ha)⟩
  have he : e ∈ s'.edges.seen := hseen ▸ hdone.pending_seen e (hpending ▸ List.mem_cons_self)
  obtain ⟨s'', hs'', hsound''⟩ := exists_handle (E := E) (O := O) hmaps hlevel hsound' he
  exact ⟨s'', hs'', hsound'', hdone.step hpop hs''⟩

/-- **The run lemma**: what is found is settled. -/
theorem done_of_run {fuel : Nat} {s : State N}
    (h : computeSummaryEdges D.toGraphs E O formalToActual fuel = some s) :
    Done D.toGraphs formalToActual s ∧ s.edges.pending = [] := by
  obtain ⟨hdone, hnone⟩ := Drain.run_induction (fun s e s' s'' hs hpop hs'' => hs.step hpop hs'')
    (done_initialized D.mem_constructedFunctions) h
  exact ⟨hdone, pop_eq_none hnone⟩

/-- **The run lemma, on level**: the computation has arrived at what is found. -/
theorem sound_of_run (hmaps : Maps D.toGraphs formalToActual) (hlevel : StaysOnLevel D.toGraphs)
    {fuel : Nat} {s : State N}
    (h : computeSummaryEdges D.toGraphs E O formalToActual fuel = some s) : Sound D s := by
  refine (Drain.run_induction (P := fun s => Sound D s ∧ Done D.toGraphs formalToActual s)
    (fun s e s' s'' hs hpop hs'' => ?_)
    ⟨sound_initialized, done_initialized D.mem_constructedFunctions⟩ h).1.1
  obtain ⟨t, ht, hkept⟩ := exists_turn (E := E) (O := O) hmaps hlevel hs.1 hs.2 hpop
  obtain rfl := Option.some.inj (ht.symm.trans hs'')
  exact hkept

/-- On level the computation ends, and no assertion fails. -/
theorem exists_run [Fintype N] (hmaps : Maps D.toGraphs formalToActual)
    (hlevel : StaysOnLevel D.toGraphs) {fuel : Nat} (hfuel : Fintype.card (N × N) < fuel) :
    ∃ s, computeSummaryEdges D.toGraphs E O formalToActual fuel = some s := by
  refine Drain.exists_run (P := fun s => Sound D s ∧ Done D.toGraphs formalToActual s)
    (r := fun s => s.edges.size) (fun s e s' hs hpop => ?_)
    ⟨sound_initialized, done_initialized D.mem_constructedFunctions⟩ ?_
  · obtain ⟨s'', hs'', hkept⟩ := exists_turn (E := E) (O := O) hmaps hlevel hs.1 hs.2 hpop
    refine ⟨s'', hs'', hkept, ?_⟩
    rw [(handle_spec hs'').1.edges.size_eq]
    obtain ⟨⟨e', w⟩, hw, heq⟩ := Option.map_eq_some_iff.1 hpop
    obtain ⟨rfl, rfl⟩ := Prod.mk.inj heq
    exact Worklist.size_pop hw
  · rw [grows_initialized.edges.size_eq]
    simpa [Worklist.size] using hfuel

/-- A run that follows no crossing edge shows that there is none to follow. -/
theorem staysOnLevel_of_run (hmaps : Maps D.toGraphs formalToActual) {fuel : Nat} {s : State N}
    (h : computeSummaryEdges D.toGraphs E O formalToActual fuel = some s)
    (hright : Right D.toGraphs s) : StaysOnLevel D.toGraphs := by
  intro p fp hfp n hn
  obtain ⟨hdone, hempty⟩ := done_of_run h
  refine hright.level n fp.outNode ?_
  exact mem_seen_of_arrives hmaps hdone hempty hright.level hn (hdone.starts p fp hfp)

/-- **When the computation is right**: no edge that it follows from a formal-out crosses, and the
parameters for globals add no summary edges. -/
theorem computeSummaryEdges_right_iff [Fintype N] (D : DependenceGraphs N P C) (E : Order (N × N))
    (O : Order N) (formalToActual : P → N → Option (List (C × N)))
    (hmaps : Maps D.toGraphs formalToActual) (fuel : Nat) (hfuel : Fintype.card (N × N) < fuel) :
    (∃ s, computeSummaryEdges D.toGraphs E O formalToActual fuel = some s ∧ Right D.toGraphs s) ↔
      StaysOnLevel D.toGraphs ∧ GlobalsAddNothing D.toGraphs := by
  constructor
  · rintro ⟨s, hs, hright⟩
    have hlevel := staysOnLevel_of_run hmaps hs hright
    refine ⟨hlevel, fun a b hab => ?_⟩
    exact summaryEdge_iff.2 ((sound_of_run hmaps hlevel hs).summary a b ((hright.summary a b).2 hab))
  · rintro ⟨hlevel, hglobals⟩
    obtain ⟨s, hs⟩ := exists_run (E := E) (O := O) hmaps hlevel hfuel
    have hsound := sound_of_run hmaps hlevel hs
    obtain ⟨hdone, hempty⟩ := done_of_run hs
    have honlevel : ∀ n o, (n, o) ∈ s.edges.seen → ∀ m ∈ follows D.toGraphs n, ¬ D.Crossing m n := by
      intro n o he
      obtain ⟨p, fp, hfp, rfl⟩ := hsound.formalOut n o he
      exact hlevel p fp hfp n (hsound.arrives n _ he)
    refine ⟨s, hs, fun a b => ⟨fun ha => ?_, fun hab => ?_⟩, honlevel⟩
    · exact Graphs.SummaryEdge.mono (fun _ _ h => Graphs.formals_of_formalParams h)
        (summaryEdge_iff.2 (hsound.summary a b ha))
    · obtain ⟨c, p, hp, fp, hfp, fp', hfp', rfl, rfl, harrives⟩ :=
        summaryEdge_iff.1 (hglobals a b hab)
      refine summary_of_settled hmaps hp hfp hfp' (hdone.settled _ ?_ (hempty ▸ List.not_mem_nil))
      exact mem_seen_of_arrives hmaps hdone hempty honlevel harrives (hdone.starts p fp' hfp')

end

/-- **A procedure with parameters that is called**: on the way from a formal-out over the entry, the
edge from the call crosses. -/
theorem crosses_at_entry {c : C} {p : P} {fp : ParameterPair N} (hp : p ∈ D.getSubgraphs c)
    (hfp : fp ∈ D.formalParams p) (hne : isFormalIn D.toGraphs fp.outNode = false)
    (hout : D.getEntry p ∈ D.revControl fp.outNode)
    (hentry : D.callNode c ∈ D.revControl (D.getEntry p)) : ¬ StaysOnLevel D.toGraphs := by
  intro hlevel
  have hfollows : ∀ {m n : N}, isFormalIn D.toGraphs n = false → m ∈ D.revControl n →
      m ∈ follows D.toGraphs n := by
    intro m n hn hm
    by_cases hout : isActualOut D.toGraphs n = true
    · rw [follows_of_actualOut hout]
      exact hm
    · rw [follows_of_other hout (Bool.eq_false_iff.1 hn)]
      exact List.mem_append_left _ (List.mem_append_left _ hm)
  have hnot : isFormalIn D.toGraphs (D.getEntry p) = false := by
    rw [← Bool.not_eq_true]
    intro hin
    obtain ⟨q, fq, hfq, heq⟩ := isFormalIn_iff.1 hin
    exact D.entry_ne_formalIn p q fq (Graphs.formals_of_formalParams hfq) heq
  have hstep := hlevel p fp hfp _ (.refl _) _ (hfollows hne hout)
  refine hlevel p fp hfp _ (.edge (hfollows hne hout) hstep (.refl _)) _ (hfollows hnot hentry) ?_
  exact Or.inl ⟨c, p, hp, Or.inl ⟨rfl, rfl⟩⟩

end

/-! ## Two programs -/

/-- Sets of numbers, in their order. -/
def ascending (n : Nat) : Order (Fin n) where
  toList := fun s => (List.finRange n).filter (· ∈ s)
  nodup := fun _ => (List.nodup_finRange n).filter _
  mem_toList := by simp

/-- Sets of pairs, in their order. -/
def ascendingPairs (n : Nat) : Order (Fin n × Fin n) where
  toList := fun s => (List.finRange n ×ˢ List.finRange n).filter (· ∈ s)
  nodup := fun _ => ((List.nodup_finRange n).product (List.nodup_finRange n)).filter _
  mem_toList := by simp

/-- The parameter of `main` in `callsPlain`. -/
def mainParameter : ParameterPair (Fin 9) := ⟨2, 3⟩

/-- `main`, with one parameter, calls a function that has none. The nodes are the entry of `main`,
the call, the formal parameter, the entry of the function, the two returns, and the exits. -/
def callsPlain : DependenceGraphs (Fin 9) Bool Unit where
  constructedFunctions := [false, true]
  getParameters := fun p => if p then none else some ⟨[mainParameter], []⟩
  getCallNodes := fun p => if p then [] else [()]
  callParameters := fun _ => none
  getSubgraphs := fun _ => [true]
  actual := fun _ _ fp => fp
  callNode := fun _ => 1
  getEntry := fun p => if p then 4 else 0
  getExit := fun p => if p then 8 else 7
  getNoReturn := fun _ => none
  callNoReturn := fun _ => none
  getDG := ![some false, some false, some false, some false, some true, some false, some true,
    some false, some true]
  revControl := ![[], [0], [0], [0], [1], [0], [4], [5], [6]]
  revData := ![[], [], [], [], [], [], [], [], []]
  users := ![[], [4], [], [], [], [], [], [], []]
  mem_constructedFunctions := by decide
  getDG_formal := by decide
  getDG_callNode := by decide
  getDG_actual := by decide
  actual_mem := by decide
  global_source := by decide
  entry_crossing := by decide
  entry_ne_formalIn := by decide
  entry_ne_actualOut := by decide
  formalIn_entry := by decide
  formalIn_ne_actualOut := by decide
  actualOut_crossing := by decide
  formalOut_actualOut := by decide

/-- The actual parameters of `mainParameter`: `main` is not called. -/
def callsPlainMap : Bool → Fin 9 → Option (List (Unit × Fin 9)) :=
  fun p n => if p then none else if n = 2 ∨ n = 3 then some [] else none

theorem callsPlain_maps : Maps callsPlain.toGraphs callsPlainMap := by
  have hparam : ∀ p, ∀ fp ∈ callsPlain.formalParams p, p = false ∧ fp = mainParameter := by decide
  refine ⟨fun p fp hfp => ?_, fun p fp hfp => ?_⟩
  · obtain ⟨rfl, rfl⟩ := hparam p fp hfp
    refine ⟨[], rfl, fun c n => ?_⟩
    simp [callsPlain]
  · obtain ⟨rfl, rfl⟩ := hparam p fp hfp
    refine ⟨[], rfl, fun c n => ?_⟩
    simp [callsPlain]

theorem callsPlain_level : StaysOnLevel callsPlain.toGraphs := by
  have hparam : ∀ p, ∀ fp ∈ callsPlain.formalParams p, fp = mainParameter := by decide
  have harrives : ∀ n o, Arrives callsPlain.toGraphs n o → o = 3 → n = 3 ∨ n = 0 := by
    intro n o h ho
    induction h with
    | refl n => exact Or.inl ho
    | @edge m n o hm _ _ ih =>
        obtain rfl | rfl := ih ho
        · exact Or.inr ((by decide : ∀ m ∈ follows callsPlain.toGraphs 3, m = 0) m hm)
        · exact absurd hm ((by decide : ∀ m, m ∉ follows callsPlain.toGraphs 0) m)
    | @call c p fp fp' o hp hfp _ _ _ _ _ =>
        have hnone : ∀ p ∈ callsPlain.getSubgraphs (), callsPlain.formalParams p = [] := by decide
        rw [hnone p hp] at hfp
        cases hfp
  intro p fp hfp n hn m hm
  obtain rfl := hparam p fp hfp
  obtain rfl | rfl := harrives n _ hn rfl
  · exact (by decide : ∀ m ∈ follows callsPlain.toGraphs 3, ¬ callsPlain.Crossing m 3) m hm
  · exact (by decide : ∀ m ∈ follows callsPlain.toGraphs 0, ¬ callsPlain.Crossing m 0) m hm

theorem callsPlain_globals : GlobalsAddNothing callsPlain.toGraphs := by
  rintro a b ⟨c, p, hp, fp, hfp, -⟩
  have hnone : ∀ p ∈ callsPlain.getSubgraphs (), callsPlain.formals p = [] := by decide
  rw [hnone p hp] at hfp
  cases hfp

theorem computeSummaryEdges_right_plain :
    ∃ s, computeSummaryEdges callsPlain.toGraphs (ascendingPairs 9) (ascending 9) callsPlainMap 82 =
      some s ∧ Right callsPlain.toGraphs s :=
  (computeSummaryEdges_right_iff callsPlain (ascendingPairs 9) (ascending 9) callsPlainMap
    callsPlain_maps 82 (by decide)).2 ⟨callsPlain_level, callsPlain_globals⟩

/-- The parameter of the function in `callsWithParameter`. -/
def calleeParameter : ParameterPair (Fin 12) := ⟨7, 8⟩

/-- `main` passes an alloca to a function with one parameter. The nodes are the entry of `main`, the
call, the return, the actual parameter, then the entry, the return and the formal parameter of the
function, the exits, and the alloca. -/
def callsWithParameter : DependenceGraphs (Fin 12) Bool Unit where
  constructedFunctions := [false, true]
  getParameters := fun p => if p then some ⟨[calleeParameter], []⟩ else none
  getCallNodes := fun p => if p then [] else [()]
  callParameters := fun _ => some ⟨[⟨3, 4⟩], []⟩
  getSubgraphs := fun _ => [true]
  actual := fun _ _ _ => ⟨3, 4⟩
  callNode := fun _ => 1
  getEntry := fun p => if p then 5 else 0
  getExit := fun p => if p then 10 else 9
  getNoReturn := fun _ => none
  callNoReturn := fun _ => none
  getDG := ![some false, some false, some false, some false, some false, some true, some true,
    some true, some true, some false, some true, some false]
  revControl := ![[], [0], [0], [1], [1], [1], [5], [5], [5], [2], [6], [0]]
  revData := ![[], [], [], [], [8], [], [], [3], [], [], [], []]
  users := ![[], [5, 11], [], [11], [], [], [], [], [], [], [], []]
  mem_constructedFunctions := by decide
  getDG_formal := by decide
  getDG_callNode := by decide
  getDG_actual := by decide
  actual_mem := by decide
  global_source := by decide
  entry_crossing := by decide
  entry_ne_formalIn := by decide
  entry_ne_actualOut := by decide
  formalIn_entry := by decide
  formalIn_ne_actualOut := by decide
  actualOut_crossing := by decide
  formalOut_actualOut := by decide

/-- The actual parameters of `calleeParameter`. -/
def callsWithParameterMap : Bool → Fin 12 → Option (List (Unit × Fin 12)) :=
  fun p n => if p then if n = 7 then some [((), 3)] else if n = 8 then some [((), 4)] else none
    else none

theorem callsWithParameter_maps : Maps callsWithParameter.toGraphs callsWithParameterMap := by
  have hparam : ∀ p, ∀ fp ∈ callsWithParameter.formalParams p, p = true ∧ fp = calleeParameter := by
    decide
  refine ⟨fun p fp hfp => ?_, fun p fp hfp => ?_⟩
  · obtain ⟨rfl, rfl⟩ := hparam p fp hfp
    exact ⟨[((), 3)], rfl, by decide⟩
  · obtain ⟨rfl, rfl⟩ := hparam p fp hfp
    exact ⟨[((), 4)], rfl, by decide⟩

/-- **The computation leaves the procedure** as soon as one with a parameter is called. -/
theorem leaves_procedure :
    ¬ ∃ s, computeSummaryEdges callsWithParameter.toGraphs (ascendingPairs 12) (ascending 12)
      callsWithParameterMap 145 = some s ∧ Right callsWithParameter.toGraphs s := by
  rintro ⟨s, hs, hright⟩
  refine crosses_at_entry (D := callsWithParameter) (c := ()) (p := true) (by decide)
    (List.mem_singleton_self calleeParameter) (by decide) (by decide) (by decide) ?_
  exact staysOnLevel_of_run callsWithParameter_maps hs hright

end Cape.SummaryEdges
