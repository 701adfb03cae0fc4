import Cape.MemorySSA.OnDemandQueries

/-!
# Memory accessed field by field

When the bytes that are overwritten and those that are asked for are fields, no two of which overlap,
each search is for one field, and PHI nodes stand for fields. Then no PHI node stands for bytes it was
not created for, and what is found is exact (`mem_answer_iff`).
-/

set_option autoImplicit false

namespace Cape.MemorySSA

open Cape.Library Cape.Library.ReachingDefinitions

universe u v w

variable {N : Type u} {B : Type v} {S : Type w}

/-! ## Fields -/

/-- The fields of every memory do not overlap, and what is overwritten is a field. -/
structure FieldWise (G : ReadWriteGraph (RWNode N) B S)
    (F : Memory (RWNode N) → DiscreteInterval → Prop) : Prop where
  apart : ∀ {t I J}, F t I → F t J → ∀ {c : Offset}, c ∈ I → c ∈ J → I = J
  overwrites : ∀ b, ∀ x ∈ G.getNodes b, ∀ ds ∈ G.getOverwrites x, F ds.target ds.getInterval

/-- The node of the graph defines a byte of the interval, or unknown memory. -/
def ReadWriteGraph.MayDefine (G : ReadWriteGraph (RWNode N) B S) (t : Memory (RWNode N))
    (I : DiscreteInterval) (x : RWNode N) : Prop :=
  x.isNode = true ∧ ((∃ c ∈ I, (G.annotations x).Defines t c) ∨ (G.annotations x).WritesUnknown)

namespace FieldWise

variable {G : ReadWriteGraph (RWNode N) B S} {F : Memory (RWNode N) → DiscreteInterval → Prop}

/-- A node of the graph overwrites a field or no byte of it. -/
theorem kills_congr (h : FieldWise G F) {t : Memory (RWNode N)} {I : DiscreteInterval} (hI : F t I)
    {c c' : Offset} (hc : c ∈ I) (hc' : c' ∈ I) {b : B} {x : RWNode N} (hx : x ∈ G.getNodes b)
    (hkill : G.Kills t c x) : G.Kills t c' x := by
  obtain ⟨ds, hds, rfl, hmem⟩ := hkill
  obtain rfl := h.apart hI (h.overwrites b x hx ds hds) hc hmem
  exact ⟨ds, hds, rfl, hc'⟩

theorem kills_iff (h : FieldWise G F) {t : Memory (RWNode N)} {I : DiscreteInterval} (hI : F t I)
    {c c' : Offset} (hc : c ∈ I) (hc' : c' ∈ I) {b : B} {x : RWNode N} (hx : x ∈ G.getNodes b) :
    G.Kills t c x ↔ G.Kills t c' x :=
  ⟨h.kills_congr hI hc hc' hx, h.kills_congr hI hc' hc hx⟩

end FieldWise

namespace Transformation

variable (G : ReadWriteGraph (RWNode N) B S) (F : Memory (RWNode N) → DiscreteInterval → Prop)

/-- The PHI node stands for the field. -/
def PhiField (s : Transformation N B) (i : Nat) (t : Memory (RWNode N)) (I : DiscreteInterval) : Prop :=
  ∃ ds, s.phis[i]? = some ds ∧ ds.target = t ∧ ds.getInterval = I

/-- A PHI node of the block, or one for the input of the procedure, which is in no block. -/
def OfBlock (s : Transformation N B) (b : B) (x : RWNode N) : Prop :=
  x ∈ s.nodes b ∨ (G.predecessors b = [] ∧ ∀ b', x ∉ s.nodes b')

/-- The definitions at a place in a block, behind the nodes `l` of the graph, field by field. -/
structure FieldPlace (s : Transformation N B) (b : B) (l : List (RWNode N))
    (D : Definitions (RWNode N)) : Prop where
  /-- a field is killed or it is not -/
  kills : ∀ t I, F t I → (∀ c ∈ I, (D.kills.offsets t).Covers c) ∨
    ∀ c ∈ I, ¬ (D.kills.offsets t).Covers c
  passes : ∀ t c, ¬ (D.kills.offsets t).Covers c → Passes (G.Kills t c) l
  own : ∀ t c i, D.definitions.Has t c (.phi i) → ∃ I, F t I ∧ c ∈ I ∧ s.PhiField i t I
  has : ∀ t I, F t I → ∀ c ∈ I, ∀ d, D.definitions.Has t c d →
    (G.MayDefine t I d ∧ Survives (G.Kills t I.start) d l) ∨
      ∃ i, d = .phi i ∧ s.PhiField i t I ∧ s.OfBlock G b d ∧ Passes (G.Kills t I.start) l

variable {G F}

theorem PhiField.lt {s : Transformation N B} {i : Nat} {t : Memory (RWNode N)} {I : DiscreteInterval}
    (h : s.PhiField i t I) : i < s.phis.length := by
  obtain ⟨ds, hds, -⟩ := h
  exact (List.getElem?_eq_some_iff.1 hds).1

theorem PhiField.phiAt {s : Transformation N B} {i : Nat} {t : Memory (RWNode N)} {I : DiscreteInterval}
    (h : s.PhiField i t I) {c : Offset} (hc : c ∈ I) : s.PhiAt i t c := by
  obtain ⟨ds, hds, rfl, rfl⟩ := h
  exact ⟨ds, hds, rfl, hc⟩

section Mono

variable [DecidableEq N] {s t : Transformation N B}

theorem Grows.phiField_iff (h : s.Grows t) {i : Nat} (hi : i < s.phis.length) {m : Memory (RWNode N)}
    {I : DiscreteInterval} : t.PhiField i m I ↔ s.PhiField i m I := by
  obtain ⟨created, hphis⟩ := h.phis
  rw [PhiField, PhiField, ← hphis, List.getElem?_append_left hi]

theorem Grows.ofBlock (h : s.Grows t) {b : B} {x : RWNode N} (hx : s.Known x)
    (hof : s.OfBlock G b x) : t.OfBlock G b x := by
  obtain hmem | ⟨hroot, hnone⟩ := hof
  · exact Or.inl (h.nodes b hmem)
  · exact Or.inr ⟨hroot, fun b' hb' => hnone b' (h.known b' x hb' hx)⟩

theorem FieldPlace.mono {b : B} {l : List (RWNode N)} {D : Definitions (RWNode N)}
    (hD : s.FieldPlace G F b l D) (h : s.Grows t) : t.FieldPlace G F b l D where
  kills := hD.kills
  passes := hD.passes
  own := by
    intro m c i hhas
    obtain ⟨I, hI, hc, hphi⟩ := hD.own m c i hhas
    exact ⟨I, hI, hc, (h.phiField_iff hphi.lt).2 hphi⟩
  has := by
    intro m I hI c hc d hhas
    obtain hdefines | ⟨i, rfl, hphi, hof, hpass⟩ := hD.has m I hI c hc d hhas
    · exact Or.inl hdefines
    · exact Or.inr ⟨i, rfl, (h.phiField_iff hphi.lt).2 hphi, h.ofBlock (known_phi_iff.2 hphi.lt) hof,
        hpass⟩

end Mono

/-! ## Blocks -/

section Blocks

variable {s : Transformation N B}

/-- What is uncovered of a field is the field, or nothing. -/
theorem FieldPlace.uncovered {b : B} {l : List (RWNode N)} {D : Definitions (RWNode N)}
    (h : s.FieldPlace G F b l D) (htight : D.Tight) {ds : DefSite (RWNode N)}
    (hds : F ds.target ds.getInterval) :
    (D.uncovered ds = [] ∧ ∀ c ∈ ds.getInterval, (D.kills.offsets ds.target).Covers c) ∨
      ∃ J, D.uncovered ds = [J] ∧ (DefSite.ofInterval ds.target J).getInterval = ds.getInterval ∧
        ∀ c ∈ ds.getInterval, ¬ (D.kills.offsets ds.target).Covers c := by
  have hstart : ds.getInterval.start ∈ ds.getInterval := ⟨le_refl _, ds.start_le_stop⟩
  obtain hall | hnone := h.kills _ _ hds
  · left
    have hdefines := DefinitionsMap.definesTarget_of_covers (hall _ hstart)
    refine ⟨?_, hall⟩
    rw [Definitions.uncovered, DefinitionsMap.undefinedIntervals_of_defines hdefines,
      DisjunctiveIntervalMap.uncovered_eq_nil_iff (htight.kills _).keysDisjoint ds.start_le_stop]
    exact hall
  · right
    by_cases hsame : D.kills.definesTarget ds.target = false → ds.offset ≠ .unknown
    · refine ⟨ds.getInterval, ?_, ?_, hnone⟩
      · rw [Definitions.uncovered, DefinitionsMap.undefinedIntervals_eq hsame,
          DisjunctiveIntervalMap.uncovered_of_free (htight.kills _).ordered ds.start_le_stop hnone]
      · rw [DefSite.getInterval_ofInterval_iff ds.start_le_stop]
        exact ⟨ds.start_ne_unknown, fun hends => DefSite.stop_ne_lastByte hends.1 hends.2⟩
    · -- the whole memory, which comes back from the unknown offset
      rw [Classical.not_imp, not_not] at hsame
      refine ⟨_, DefinitionsMap.undefinedIntervals_of_absent hsame.1, ?_, hnone⟩
      rw [DefSite.getInterval_of_unknown hsame.2]
      exact DefSite.getInterval_of_unknown hsame.2

variable [DecidableEq N]

/-- Behind the nodes at the front of a block, in which the PHI nodes come first. -/
theorem fieldPlace_number (hF : FieldWise G F) {b : B} {P R : List (RWNode N)}
    (h : s.PhisFirst G b P R)
    (hphis : ∀ (i : Nat) (ds : DefSite (RWNode N)), s.phis[i]? = some ds → F ds.target ds.getInterval)
    {l : List (RWNode N)} (hl : l <+: s.nodes b) :
    s.FieldPlace G F b (l.filter RWNode.isNode) (s.number G l) := by
  have hnumbered := numbered_run (s.getAnnotations G) l
  have hgraph : ∀ n, .node n ∈ l → .node n ∈ G.getNodes b := by
    intro n hn
    rw [← h.filter_nodes]
    exact List.mem_filter.2 ⟨hl.subset hn, rfl⟩
  have hphiField : ∀ i t I c, F t I → c ∈ I → s.PhiAt i t c → s.PhiField i t I := by
    rintro i t I c hI hc ⟨ds, hds, rfl, hmem⟩
    exact ⟨ds, hds, rfl, hF.apart (hphis i ds hds) hI hmem hc⟩
  -- each node overwrites a field or no byte of it
  have hwhole : ∀ t I, F t I → ∀ c ∈ I, ∀ c' ∈ I, ∀ q ∈ l, (s.getAnnotations G q).Overwrites t c →
      (s.getAnnotations G q).Overwrites t c' := by
    intro t I hI c hc c' hc' q hq hover
    cases q with
    | node n => exact hF.kills_congr hI hc hc' (hgraph n hq) hover
    | phi i =>
        exact overwrites_phi_iff.2 ((hphiField i t I c hI hc (overwrites_phi_iff.1 hover)).phiAt hc')
    | mu i => exact absurd hover (not_overwrites_mu s i t c)
  have hnodes : ∀ q ∈ l.filter RWNode.isNode, ∀ t c, G.Kills t c q →
      (s.getAnnotations G q).Overwrites t c := by
    intro q hq t c hkill
    obtain ⟨n, rfl⟩ := RWNode.exists_of_isNode (List.mem_filter.1 hq).2
    exact hkill
  refine ⟨fun t I hI => ?_, fun t c hfree q hq hkill => ?_, fun t c i hhas => ?_,
    fun t I hI c hc d hhas => ?_⟩
  · by_cases hex : ∃ c ∈ I, ∃ q ∈ l, (s.getAnnotations G q).Overwrites t c
    · obtain ⟨c, hc, q, hq, hover⟩ := hex
      exact Or.inl fun c' hc' => (hnumbered.kills t c').2 ⟨q, hq, hwhole t I hI c hc c' hc' q hq hover⟩
    · refine Or.inr fun c hc hcovers => hex ⟨c, hc, ?_⟩
      exact (hnumbered.kills t c).1 hcovers
  · apply hfree
    exact (hnumbered.kills t c).2 ⟨q, (List.mem_filter.1 hq).1, hnodes q hq t c hkill⟩
  · obtain ⟨ds, hds, rfl, hc⟩ := phiAt_of_has_number hhas
    exact ⟨ds.getInterval, hphis i ds hds, hc, ds, hds, rfl, rfl⟩
  · obtain ⟨hdefines, hsurvives⟩ := hnumbered.of_has t c d hhas
    have hstart : I.start ∈ I := ⟨le_refl _, hc.1.trans hc.2⟩
    have hkills : ∀ q ∈ l.filter RWNode.isNode, G.Kills t I.start q →
        (s.getAnnotations G q).Overwrites t c := fun q hq hkill =>
      hwhole t I hI _ hstart c hc q (List.mem_filter.1 hq).1 (hnodes q hq t _ hkill)
    cases d with
    | node n =>
        left
        refine ⟨⟨rfl, hdefines.imp_left fun hd => ⟨c, hc, hd⟩⟩, ?_⟩
        obtain ⟨pre, post, rfl, hpost⟩ := hsurvives
        refine ⟨pre.filter RWNode.isNode, post.filter RWNode.isNode, ?_, fun q hq => ?_⟩
        · rw [List.filter_append, List.filter_cons_of_pos rfl]
        · intro hkill
          refine hpost q (List.mem_filter.1 hq).1 (hkills q ?_ hkill)
          rw [List.filter_append, List.filter_cons_of_pos rfl]
          exact List.mem_append_right _ (List.mem_cons_of_mem _ hq)
    | phi i =>
        right
        refine ⟨i, rfl, hphiField i t I c hI hc (phiAt_of_has_number hhas),
          Or.inl (hl.subset hsurvives.mem), ?_⟩
        obtain ⟨pre, post, heq, hpost⟩ := hsurvives
        exact fun q hq hkill => hpost q (h.behind hl heq hq) (hkills q hq hkill)
    | mu i => exact absurd hdefines (not_defines_mu s i t c)

/-- A PHI node is created for a field. -/
theorem FieldPlace.cover (hF : FieldWise G F) {s' : Transformation N B} {b : B} {l : List (RWNode N)}
    {D : Definitions (RWNode N)} (h : s.FieldPlace G F b l D) (hplace : s.PlaceRight G b l D)
    (hgrows : s.Grows s') {i : Nat} {ds : DefSite (RWNode N)} (hds : F ds.target ds.getInterval)
    (hphi : s'.phis[i]? = some ds) (hof : s'.OfBlock G b (.phi i)) :
    s'.FieldPlace G F b l (Transformation.cover (.phi i) ds D) := by
  have hcovered := covered_cover (.phi i) ds.target (D.uncovered ds) hplace.tight
  have hstart : ds.getInterval.start ∈ ds.getInterval := ⟨le_refl _, ds.start_le_stop⟩
  -- the PHI node comes behind the field, or behind no byte
  have hin : ∀ c, InIntervals ds.target (D.uncovered ds) c → c ∈ ds.getInterval ∧
      Passes (G.Kills ds.target ds.getInterval.start) l ∧
      ∀ c' ∈ ds.getInterval, InIntervals ds.target (D.uncovered ds) c' := by
    obtain ⟨hnil, -⟩ | ⟨J, hJ, hsame, hfree⟩ := h.uncovered hplace.tight hds
    · rw [hnil]
      rintro c ⟨J, hJ, -⟩
      exact absurd hJ List.not_mem_nil
    · have hmem : ∀ c, InIntervals ds.target (D.uncovered ds) c ↔ c ∈ ds.getInterval := by
        intro c
        simp only [hJ, InIntervals, List.mem_singleton, exists_eq_left, hsame]
      exact fun c hc => ⟨(hmem c).1 hc, h.passes _ _ (hfree _ hstart), fun c' => (hmem c').2⟩
  have hold := h.mono hgrows
  refine ⟨fun t I hI => ?_, fun t c hfree => ?_, fun t c j hhas => ?_, fun t I hI c hc d hhas => ?_⟩
  · by_cases hex : ∃ c ∈ I, t = ds.target ∧ InIntervals ds.target (D.uncovered ds) c
    · obtain ⟨c, hc, rfl, hJ⟩ := hex
      obtain ⟨hc', -, hall⟩ := hin c hJ
      obtain rfl := hF.apart hI hds hc hc'
      exact Or.inl fun c' hmem => (hcovered.kills _ c').2 (Or.inr ⟨rfl, hall c' hmem⟩)
    · refine (h.kills t I hI).imp (fun hall c hc => (hcovered.kills t c).2 (Or.inl (hall c hc))) ?_
      intro hnone c hc hcovers
      obtain hcovers | hnew := (hcovered.kills t c).1 hcovers
      · exact hnone c hc hcovers
      · exact hex ⟨c, hc, hnew⟩
  · exact h.passes t c fun hcovers => hfree ((hcovered.kills t c).2 (Or.inl hcovers))
  · obtain hhas | ⟨rfl, hJ, hnew | hunknown⟩ := (hcovered.has t c _).1 hhas
    · exact hold.own t c j hhas
    · obtain rfl := RWNode.phi.inj hnew
      exact ⟨ds.getInterval, hds, (hin c hJ).1, ds, hphi, rfl, rfl⟩
    · exact absurd (hplace.unknownWrites _ hunknown).2.1 Bool.false_ne_true
  · obtain hhas | ⟨rfl, hJ, hnew⟩ := (hcovered.has t c _).1 hhas
    · exact hold.has t I hI c hc d hhas
    · obtain ⟨hc', hpass, -⟩ := hin c hJ
      obtain rfl := hF.apart hI hds hc hc'
      obtain rfl | hunknown := hnew
      · exact Or.inr ⟨i, rfl, ⟨ds, hphi, rfl, rfl⟩, hof, hpass⟩
      · obtain ⟨hmem, hnode, hwrites⟩ := hplace.unknownWrites _ hunknown
        exact Or.inl ⟨⟨hnode, Or.inr hwrites⟩, hpass.survives hmem⟩

/-- What `get` returns for a field. -/
theorem FieldPlace.get {b : B} {l : List (RWNode N)} {D : Definitions (RWNode N)}
    (h : s.FieldPlace G F b l D) (hplace : s.PlaceRight G b l D) {ds : DefSite (RWNode N)}
    (hds : F ds.target ds.getInterval) {d : RWNode N} (hd : d ∈ D.get ds) :
    (G.MayDefine ds.target ds.getInterval d ∧
        Survives (G.Kills ds.target ds.getInterval.start) d l) ∨
      ∃ i, d = .phi i ∧ s.PhiField i ds.target ds.getInterval ∧ s.OfBlock G b d ∧
        Passes (G.Kills ds.target ds.getInterval.start) l := by
  have hgather : ∀ d, d ∈ D.definitions.get ds ↔
      ∃ c ∈ ds.getInterval, D.definitions.Has ds.target c d := fun d =>
    DisjunctiveIntervalMap.mem_gather_iff (D.definitions.ordered ds.target) ds.start_le_stop
  have hstart : ds.getInterval.start ∈ ds.getInterval := ⟨le_refl _, ds.start_le_stop⟩
  rw [Definitions.get] at hd
  cases hget : D.definitions.get ds with
  | nil =>
      -- nothing is behind the field, so that nothing overwrites it
      rw [hget, List.mem_dedup] at hd
      obtain ⟨hmem, hnode, hwrites⟩ := hplace.unknownWrites d hd
      obtain hpass | ⟨a, ha, hsurvives⟩ :=
        @passes_or_survives _ (G.Kills ds.target ds.getInterval.start) l
      · exact Or.inl ⟨⟨hnode, Or.inr hwrites⟩, hpass.survives hmem⟩
      · have hnone := (hgather a).2 ⟨_, hstart, hplace.has_of _ _ a (Or.inr ha) hsurvives⟩
        rw [hget] at hnone
        exact absurd hnone List.not_mem_nil
  | cons n ns =>
      rw [hget] at hd
      obtain ⟨c, hc, hhas⟩ := (hgather d).1 (by rw [hget]; exact hd)
      exact h.has _ _ hds c hc d hhas

end Blocks

/-! ## States -/

section States

variable (G F)

/-- What holds of the state, field by field. -/
structure FieldShape (s : Transformation N B) : Prop where
  blocks : ∀ b D, s.definitions b = some D → s.FieldPlace G F b (G.getNodes b) D
  phis : ∀ (i : Nat) (ds : DefSite (RWNode N)), s.phis[i]? = some ds → F ds.target ds.getInterval
  unplaced : ∀ i, (∀ b, .phi i ∉ s.nodes b) → s.defuse (.phi i) = none

/-- A PHI node for the field, of the block. -/
def FieldPhiOf (s : Transformation N B) (t : Memory (RWNode N)) (I : DiscreteInterval) (b : B)
    (x : RWNode N) : Prop :=
  ∃ i, x = .phi i ∧ s.PhiField i t I ∧ s.OfBlock G b x

/-- What was found may define the field and reaches the place, or is a PHI node that does. -/
abbrev SentAt (s : Transformation N B) (t : Memory (RWNode N)) (I : DiscreteInterval) (x : RWNode N)
    (b : B) (l : List (RWNode N)) : Prop :=
  Sent (G.Kills t I.start) (G.MayDefine t I) G.getNodes G.predecessors (s.FieldPhiOf G t I) x b l

/-- The operands of the PHI node come from the ends of the predecessors. -/
def PrecisePhi [DecidableEq N] (s : Transformation N B) (i : Nat) : Prop :=
  ∀ b, .phi i ∈ s.nodes b → ∀ t I, s.PhiField i t I → ∀ y ∈ s.operands (.phi i),
    ∃ p ∈ G.predecessors b, s.SentAt G t I y p (G.getNodes p)

/-- What a search does, field by field. -/
structure FieldExtends [DecidableEq N] (s t : Transformation N B) : Prop where
  whole : s.Extends G t
  shape : t.FieldShape G F
  precise : ∀ i, s.phis.length ≤ i → t.PrecisePhi G i

variable {G F} [DecidableEq N] {s t u : Transformation N B}

omit [DecidableEq N] in
/-- PHI nodes stand for their fields only. -/
theorem FieldShape.ownBytes (h : s.FieldShape G F) : s.OwnBytes := by
  intro b D hD t c i hhas
  obtain ⟨I, -, hc, hphi⟩ := (h.blocks b D hD).own t c i hhas
  exact hphi.phiAt hc

theorem Grows.sentAt (h : s.Grows t) {m : Memory (RWNode N)} {I : DiscreteInterval} {x : RWNode N}
    {b : B} {l : List (RWNode N)} (hx : s.SentAt G m I x b l) : t.SentAt G m I x b l := by
  obtain hreach | ⟨b', ⟨i, rfl, hphi, hof⟩, hclear⟩ := hx
  · exact Or.inl hreach
  · exact Or.inr ⟨b', ⟨i, rfl, (h.phiField_iff hphi.lt).2 hphi,
      h.ofBlock (known_phi_iff.2 hphi.lt) hof⟩, hclear⟩

theorem Grows.precisePhi (h : s.Grows t) {i : Nat} (hi : i < s.phis.length) (hp : s.PrecisePhi G i) :
    t.PrecisePhi G i := by
  intro b hb m I hphi y hy
  have hknown : s.Known (.phi i) := known_phi_iff.2 hi
  rw [h.operands_eq hknown] at hy
  obtain ⟨p, hp, hsent⟩ := hp b (h.known b _ hb hknown) m I ((h.phiField_iff hi).1 hphi) y hy
  exact ⟨p, hp, h.sentAt hsent⟩

theorem Shape.precisePhi_of_le (h : s.Shape G) {i : Nat} (hi : s.phis.length ≤ i) :
    s.PrecisePhi G i :=
  fun _ hb => absurd (h.mem_lt hb) (Nat.not_lt.2 hi)

theorem FieldExtends.of_length (h : s.Extends G t) (hshape : t.FieldShape G F)
    (hlength : t.phis.length = s.phis.length) : s.FieldExtends G F t :=
  ⟨h, hshape, fun _ hi => h.shape.precisePhi_of_le (hlength ▸ hi)⟩

theorem FieldExtends.refl (h : s.Shape G) (hshape : s.FieldShape G F) : s.FieldExtends G F s :=
  .of_length (.refl h) hshape rfl

theorem FieldExtends.trans (h : s.FieldExtends G F t) (h' : t.FieldExtends G F u) :
    s.FieldExtends G F u where
  whole := h.whole.trans h'.whole
  shape := h'.shape
  precise := by
    intro i hi
    obtain hlt | hge := Nat.lt_or_ge i t.phis.length
    · exact h'.whole.grows.precisePhi hlt (h.precise i hi)
    · exact h'.precise i hge

/-- A loop over searches: what it finds has been found by one of them. -/
theorem loop_sent {ι : Type*} {f : Transformation N B × List (RWNode N) → ι →
      Option (Transformation N B × List (RWNode N))}
    {Q : Transformation N B → RWNode N → Prop} (hQ : ∀ {s t x}, s.Grows t → Q s x → Q t x)
    {l : List ι} {p q : Transformation N B × List (RWNode N)}
    (hstep : ∀ a ∈ l, ∀ mid mid', p.1.FieldExtends G F mid.1 → f mid a = some mid' →
      mid.1.FieldExtends G F mid'.1 ∧ ∀ x ∈ mid'.2, x ∈ mid.2 ∨ Q mid'.1 x)
    (h : p.1.Shape G) (hshape : p.1.FieldShape G F) (hrun : l.foldlM f p = some q) :
    p.1.FieldExtends G F q.1 ∧ ∀ x ∈ q.2, x ∈ p.2 ∨ Q q.1 x := by
  refine FallibleLoop.keeps (I := fun q => p.1.FieldExtends G F q.1 ∧
    ∀ x ∈ q.2, x ∈ p.2 ∨ Q q.1 x) ?_ ⟨.refl h hshape, fun x hx => Or.inl hx⟩ hrun
  rintro a ha mid mid' ⟨hextends, hfound⟩ hmid
  obtain ⟨hextends', hfound'⟩ := hstep a ha mid mid' hextends hmid
  refine ⟨hextends.trans hextends', fun x hx => ?_⟩
  obtain hx | hx := hfound' x hx
  · exact (hfound x hx).imp_right (hQ hextends'.whole.grows)
  · exact Or.inr hx

end States

/-! ## The search -/

section Search

variable [DecidableEq N] {s : Transformation N B}

variable (G F) in
/-- What a search for a field at the end of a block finds. -/
def SearchSent (search : B → DefSite (RWNode N) → Transformation N B →
    Option (Transformation N B × List (RWNode N))) : Prop :=
  ∀ b ds s s' found, s.Shape G → s.FieldShape G F → F ds.target ds.getInterval →
    search b ds s = some (s', found) → s.FieldExtends G F s' ∧
      ∀ x ∈ found, s'.SentAt G ds.target ds.getInterval x b (G.getNodes b)

/-- A PHI node that was not there. -/
theorem fieldShape_withPhi (hF : FieldWise G F) (h : s.Shape G) (hfields : s.FieldShape G F) {b : B}
    [DecidableEq B] {ds : DefSite (RWNode N)} (hds : F ds.target ds.getInterval)
    {D : Definitions (RWNode N)} (hD : s.definitions b = some D) {nodes : List (RWNode N)}
    (hnodes : (nodes = s.nodes b ∧ G.predecessors b = []) ∨
      nodes = .phi s.phis.length :: s.nodes b) :
    (s.withPhi b ds D nodes).FieldShape G F := by
  have hshape := h.withPhi ds hD hnodes
  have hgrows := h.grows_withPhi ds hD hnodes
  have hnew : (s.withPhi b ds D nodes).phis[s.phis.length]? = some ds := by
    show (s.phis ++ [ds])[s.phis.length]? = some ds
    rw [List.getElem?_append_right le_rfl]
    simp
  have hof : (s.withPhi b ds D nodes).OfBlock G b (.phi s.phis.length) := by
    obtain ⟨rfl, hroot⟩ | rfl := hnodes
    · refine Or.inr ⟨hroot, fun b' hb' => ?_⟩
      have hmem : .phi s.phis.length ∈ Function.update s.nodes b (s.nodes b) b' := hb'
      rw [Function.update_eq_self] at hmem
      exact lt_irrefl _ (h.mem_lt hmem)
    · left
      show _ ∈ Function.update s.nodes b (.phi s.phis.length :: s.nodes b) b
      rw [Function.update_self]
      exact List.mem_cons_self
  refine ⟨fun b' D' hD' => ?_, fun i ds' hds' => ?_, fun i hi => ?_⟩
  · have hD' : Function.update s.definitions b (some (Transformation.cover (.phi s.phis.length) ds D))
        b' = some D' := hD'
    by_cases hb : b' = b
    · subst hb
      rw [Function.update_self] at hD'
      obtain rfl := Option.some.inj hD'
      exact (hfields.blocks b' D hD).cover hF (h.blocks b' D hD) hgrows hds hnew hof
    · rw [Function.update_of_ne hb] at hD'
      exact (hfields.blocks b' D' hD').mono hgrows
  · obtain hlt | rfl | hgt := lt_trichotomy i s.phis.length
    · refine hfields.phis i ds' ?_
      rw [← hds']
      exact (List.getElem?_append_left hlt).symm
    · rw [hnew] at hds'
      obtain rfl := Option.some.inj hds'
      exact hds
    · have hlength := (List.getElem?_eq_some_iff.1 hds').1
      have hlength : i < (s.phis ++ [ds]).length := hlength
      rw [List.length_append, List.length_singleton] at hlength
      omega
  · exact hfields.unplaced i fun b' hb' => hi b' (hgrows.nodes b' hb')

theorem fieldExtends_getBBlockDefinitions [DecidableEq B] (hF : FieldWise G F) (h : s.Shape G)
    (hfields : s.FieldShape G F) (b : B) : s.FieldExtends G F (getBBlockDefinitions G b s).1 := by
  obtain ⟨hextends, hD, hnodes, hphis⟩ := extends_getBBlockDefinitions h b
  refine .of_length hextends ?_ (by rw [hphis])
  rw [getBBlockDefinitions] at hextends ⊢
  cases hsome : s.definitions b with
  | some D => exact hfields
  | none =>
      rw [hsome] at hextends
      refine ⟨fun b' D' hD' => FieldPlace.mono ?_ hextends.grows, hfields.phis, hfields.unplaced⟩
      have hD' : Function.update s.definitions b (some (s.number G (s.nodes b))) b' = some D' := hD'
      by_cases hb : b' = b
      · subst hb
        rw [Function.update_self] at hD'
        obtain rfl := Option.some.inj hD'
        obtain ⟨P, R, hfirst⟩ := h.phisFirst b'
        rw [← hfirst.filter_nodes]
        exact fieldPlace_number hF hfirst hfields.phis (List.prefix_refl _)
      · rw [Function.update_of_ne hb] at hD'
        exact hfields.blocks b' D' hD'

variable {search : B → DefSite (RWNode N) → Transformation N B →
  Option (Transformation N B × List (RWNode N))}

/-- The operands of a PHI node for a field. -/
theorem SearchSent.findPhiDefinitions (hsent : SearchSent G F search) {phi : RWNode N}
    {blocks : List B} {ds : DefSite (RWNode N)} {s' : Transformation N B} (h : s.Shape G)
    (hfields : s.FieldShape G F) (hds : F ds.target ds.getInterval)
    (hrun : findPhiDefinitions search phi blocks ds s = some s') :
    ∃ t found, s.FieldExtends G F t ∧ s' = t.addDefUse phi found ∧ ∀ y ∈ found,
      ∃ p ∈ blocks, t.SentAt G ds.target ds.getInterval y p (G.getNodes p) := by
  rw [Transformation.findPhiDefinitions, Option.map_eq_some_iff] at hrun
  obtain ⟨⟨t, found⟩, hloop, rfl⟩ := hrun
  have hright := loop_sent (p := (s, [])) (q := (t, found))
    (Q := fun t y => ∃ p ∈ blocks, t.SentAt G ds.target ds.getInterval y p (G.getNodes p))
    (fun hgrows hy => hy.imp fun _ hp => hp.imp_right hgrows.sentAt)
    (fun p hp mid mid' hmid hstep => ?_) h hfields hloop
  · exact ⟨t, found, hright.1, rfl, fun y hy => (hright.2 y hy).resolve_left List.not_mem_nil⟩
  · obtain ⟨⟨t', found'⟩, hfound, rfl⟩ := Option.map_eq_some_iff.1 hstep
    obtain ⟨hextends, hsent⟩ := hsent p ds mid.1 t' found' hmid.whole.shape hmid.shape hds hfound
    refine ⟨hextends, fun x hx => (List.mem_union_iff.1 hx).imp_right fun hx => ⟨p, hp, hsent x hx⟩⟩

variable [DecidableEq B]

/-- In front of a block with predecessors: the PHI node gets its operands. -/
theorem SearchSent.createAndPlacePhi (hF : FieldWise G F) (hright : SearchRight G search)
    (hsent : SearchSent G F search) {b : B} {ds : DefSite (RWNode N)} {s' : Transformation N B}
    (h : s.Shape G) (hfields : s.FieldShape G F) (hds : F ds.target ds.getInterval)
    (hrun : Transformation.findPhiDefinitions search (createAndPlacePhi G b ds s).2 (G.predecessors b)
      ds (createAndPlacePhi G b ds s).1 = some s') :
    s.FieldExtends G F s' ∧
      s'.SentAt G ds.target ds.getInterval (createAndPlacePhi G b ds s).2 b [] := by
  obtain ⟨hwhole, -, hphiOf⟩ := hright.createAndPlacePhi h hrun
  have hprocess := fieldExtends_getBBlockDefinitions hF h hfields b
  obtain ⟨-, hD, -, hphis⟩ := extends_getBBlockDefinitions h b
  have hstart : ds.getInterval.start ∈ ds.getInterval := ⟨le_refl _, ds.start_le_stop⟩
  rw [createAndPlacePhi_eq] at hrun hphiOf ⊢
  generalize getBBlockDefinitions G b s = processed at hprocess hD hphis hrun hphiOf ⊢
  obtain ⟨s₁, D⟩ := processed
  dsimp only at hprocess hD hphis hrun hphiOf ⊢
  have hshape := hprocess.whole.shape.withPhi ds hD (Or.inr rfl)
  have hgrows := hprocess.whole.shape.grows_withPhi ds hD (Or.inr rfl)
  have hfields₂ := fieldShape_withPhi hF hprocess.whole.shape hprocess.shape hds hD (Or.inr rfl)
  obtain ⟨t, found, hextends, rfl, hfound⟩ := hsent.findPhiDefinitions hshape hfields₂ hds hrun
  obtain ⟨hmem, -⟩ := hphiOf _ hstart
  have hmem : .phi s₁.phis.length ∈ t.nodes b := hmem
  have hlength : (s₁.phis ++ [ds]).length = s₁.phis.length + 1 := by
    rw [List.length_append, List.length_singleton]
  have hnew : t.phis[s₁.phis.length]? = some ds := by
    obtain ⟨created, hphis⟩ := hextends.whole.grows.phis
    have hphis : s₁.phis ++ [ds] ++ created = t.phis := hphis
    rw [← hphis, List.append_assoc, List.getElem?_append_right le_rfl]
    simp
  -- before it got its operands, it had none
  have hnone : t.defuse (.phi s₁.phis.length) = none := by
    rw [hextends.whole.grows.defuse _ (known_phi_iff.2 (by
      show s₁.phis.length < (s₁.phis ++ [ds]).length
      omega))]
    exact hprocess.whole.shape.defuse_phi _ le_rfl
  constructor
  · refine ⟨hwhole, ⟨fun b' D' hD' => ?_, hextends.shape.phis, fun i hi => ?_⟩, fun i hi => ?_⟩
    · have hplace := hextends.shape.blocks b' D' hD'
      exact ⟨hplace.kills, hplace.passes, hplace.own, hplace.has⟩
    · rw [addDefUse_of_ne]
      · exact hextends.shape.unplaced i hi
      · intro heq
        obtain rfl := RWNode.phi.inj heq
        exact hi b hmem
    · rw [← hphis] at hi
      intro b' hb' m I hphi y hy
      obtain rfl | hne := eq_or_ne i s₁.phis.length
      · -- the new PHI node is in this block only, and stands for this field only
        obtain rfl := eq_of_mem_new hprocess.whole.shape hextends.whole.grows hb'
        obtain ⟨ds', hds', rfl, rfl⟩ := hphi
        have hds' : t.phis[s₁.phis.length]? = some ds' := hds'
        rw [hnew] at hds'
        obtain rfl := Option.some.inj hds'
        refine hfound y ((mem_addDefUse.1 hy).resolve_left ?_)
        rw [hnone]
        exact List.not_mem_nil
      · have hy : y ∈ ((t.addDefUse (.phi s₁.phis.length) found).defuse (.phi i)).getD [] := hy
        rw [addDefUse_of_ne found fun heq => hne (RWNode.phi.inj heq)] at hy
        refine hextends.precise i ?_ b' hb' m I hphi y hy
        show (s₁.phis ++ [ds]).length ≤ i
        omega
  · refine Or.inr ⟨b, ⟨_, rfl, ⟨ds, hnew, rfl, rfl⟩, Or.inl hmem⟩, .here ?_⟩
    exact fun q hq => absurd hq List.not_mem_nil

/-- The PHI node for the input of a procedure. -/
theorem fieldExtends_createPhiIn (hF : FieldWise G F) (h : s.Shape G) (hfields : s.FieldShape G F)
    {b : B} (hroot : G.predecessors b = []) {ds : DefSite (RWNode N)}
    (hds : F ds.target ds.getInterval) :
    s.FieldExtends G F (createPhiIn G b ds s).1 ∧ (createPhiIn G b ds s).1.SentAt G ds.target
      ds.getInterval (createPhiIn G b ds s).2 b [] := by
  have hwhole := extends_createPhiIn h hroot ds
  have hprocess := fieldExtends_getBBlockDefinitions hF h hfields b
  obtain ⟨-, hD, -, hphis⟩ := extends_getBBlockDefinitions h b
  rw [createPhiIn_eq] at hwhole ⊢
  generalize getBBlockDefinitions G b s = processed at hprocess hD hphis hwhole ⊢
  obtain ⟨s₁, D⟩ := processed
  dsimp only at hprocess hD hphis hwhole ⊢
  have hin : ∀ b' x, x ∈ (s₁.withPhi b ds D (s₁.nodes b)).nodes b' → x ∈ s₁.nodes b' := by
    intro b' x hx
    have hx : x ∈ Function.update s₁.nodes b (s₁.nodes b) b' := hx
    rw [Function.update_eq_self] at hx
    exact hx
  constructor
  · refine ⟨hwhole, fieldShape_withPhi hF hprocess.whole.shape hprocess.shape hds hD
      (Or.inl ⟨rfl, hroot⟩), fun i hi b' hb' => ?_⟩
    rw [← hphis] at hi
    exact absurd (hprocess.whole.shape.mem_lt (hin b' _ hb')) (Nat.not_lt.2 hi)
  · refine Or.inr ⟨b, ⟨_, rfl, ⟨ds, ?_, rfl, rfl⟩, Or.inr ⟨hroot, fun b' hb' => ?_⟩⟩, .here ?_⟩
    · show (s₁.phis ++ [ds])[s₁.phis.length]? = some ds
      rw [List.getElem?_append_right le_rfl]
      simp
    · exact lt_irrefl _ (hprocess.whole.shape.mem_lt (hin b' _ hb'))
    · exact fun q hq => absurd hq List.not_mem_nil

variable [DecidableEq S]

theorem SearchSent.findDefinitionsInPredecessors (hF : FieldWise G F) (hright : SearchRight G search)
    (hsent : SearchSent G F search) {b : B} {ds : DefSite (RWNode N)} {s' : Transformation N B}
    {found : List (RWNode N)} (h : s.Shape G) (hfields : s.FieldShape G F)
    (hds : F ds.target ds.getInterval)
    (hrun : findDefinitionsInPredecessors G search b ds s = some (s', found)) :
    s.FieldExtends G F s' ∧ ∀ x ∈ found, s'.SentAt G ds.target ds.getInterval x b [] := by
  rw [Transformation.findDefinitionsInPredecessors] at hrun
  cases hp : G.getSinglePredecessor b with
  | some p =>
      rw [hp] at hrun
      obtain ⟨hextends, hfound⟩ := hsent p ds s s' found h hfields hds hrun
      have hmem : p ∈ G.predecessors b := by
        rw [getSinglePredecessor_eq_some_iff.1 hp]
        exact List.mem_singleton_self p
      refine ⟨hextends, fun x hx => (hfound x hx).behind hmem (.here ?_)⟩
      exact fun q hq => absurd hq List.not_mem_nil
  | none =>
      rw [hp] at hrun
      have hrun : findDefinitionsInMultiplePredecessors G search b ds s = some (s', found) := hrun
      rw [Transformation.findDefinitionsInMultiplePredecessors] at hrun
      by_cases hroot : G.predecessors b = []
      · rw [if_pos (List.isEmpty_iff.2 hroot)] at hrun
        split at hrun
        · obtain ⟨rfl, rfl⟩ := Prod.mk.inj (Option.some.inj hrun)
          obtain ⟨hextends, hphi⟩ := fieldExtends_createPhiIn hF h hfields hroot hds
          refine ⟨hextends, fun x hx => ?_⟩
          rw [List.mem_singleton.1 hx]
          exact hphi
        · obtain ⟨rfl, rfl⟩ := Prod.mk.inj (Option.some.inj hrun)
          exact ⟨.refl h hfields, fun x hx => absurd hx List.not_mem_nil⟩
      · rw [if_neg (by simpa using hroot)] at hrun
        obtain ⟨t, hfind, heq⟩ := Option.map_eq_some_iff.1 hrun
        obtain ⟨rfl, rfl⟩ := Prod.mk.inj heq
        obtain ⟨hextends, hphi⟩ := hsent.createAndPlacePhi hF hright h hfields hds hfind
        refine ⟨hextends, fun x hx => ?_⟩
        rw [List.mem_singleton.1 hx]
        exact hphi

/-- What the definitions at a place do not have is sought in front of the block. -/
theorem SearchSent.addUncoveredFromPredecessors (hF : FieldWise G F) (hright : SearchRight G search)
    (hsent : SearchSent G F search) {b : B} {l : List (RWNode N)} {D : Definitions (RWNode N)}
    {t : Transformation N B} (hplace : t.PlaceRight G b l D) (hfield : t.FieldPlace G F b l D)
    {ds : DefSite (RWNode N)} {defs : List (RWNode N)} {s' : Transformation N B}
    {found : List (RWNode N)} (h : s.Shape G) (hfields : s.FieldShape G F)
    (hds : F ds.target ds.getInterval)
    (hrun : addUncoveredFromPredecessors G search b D ds defs s = some (s', found)) :
    s.FieldExtends G F s' ∧ ∀ x ∈ found, x ∈ defs ∨
      s'.SentAt G ds.target ds.getInterval x b l := by
  rw [Transformation.addUncoveredFromPredecessors] at hrun
  have hstart : ds.getInterval.start ∈ ds.getInterval := ⟨le_refl _, ds.start_le_stop⟩
  have huncovered : ∀ J ∈ D.uncovered ds,
      (DefSite.ofInterval ds.target J).getInterval = ds.getInterval ∧
        Passes (G.Kills ds.target ds.getInterval.start) l := by
    intro J hJ
    obtain ⟨hnil, -⟩ | ⟨J', hJ', hsame, hfree⟩ := hfield.uncovered hplace.tight hds
    · rw [hnil] at hJ
      exact absurd hJ List.not_mem_nil
    · rw [hJ'] at hJ
      rw [List.mem_singleton.1 hJ]
      exact ⟨hsame, hfield.passes _ _ (hfree _ hstart)⟩
  refine loop_sent (p := (s, defs)) (q := (s', found))
    (Q := fun t x => t.SentAt G ds.target ds.getInterval x b l)
    (fun hgrows hx => hgrows.sentAt hx) (fun J hJ mid mid' hmid hstep => ?_) h hfields hrun
  obtain ⟨hsame, hpass⟩ := huncovered J hJ
  obtain ⟨⟨t', found'⟩, hfound, rfl⟩ := Option.map_eq_some_iff.1 hstep
  have hsite : F (DefSite.ofInterval ds.target J).target
      (DefSite.ofInterval ds.target J).getInterval := by
    rw [hsame]
    exact hds
  obtain ⟨hextends, hsent⟩ := hsent.findDefinitionsInPredecessors hF hright hmid.whole.shape hmid.shape
    hsite hfound
  refine ⟨hextends, fun x hx => (List.mem_append.1 hx).imp_right fun hx => ?_⟩
  have hx := hsent x hx
  rw [hsame] at hx
  exact hx.of_start hpass

omit [DecidableEq B] [DecidableEq S] in
/-- What the definitions at a place have. -/
theorem FieldPlace.sentAt {t : Transformation N B} {b : B} {l : List (RWNode N)}
    {D : Definitions (RWNode N)} (h : s.FieldPlace G F b l D) (hplace : s.PlaceRight G b l D)
    (hgrows : s.Grows t) {ds : DefSite (RWNode N)} (hds : F ds.target ds.getInterval) {x : RWNode N}
    (hx : x ∈ D.get ds) : t.SentAt G ds.target ds.getInterval x b l := by
  refine hgrows.sentAt ?_
  obtain ⟨hdefines, hsurvives⟩ | ⟨i, rfl, hphi, hof, hpass⟩ := h.get hplace hds hx
  · exact Or.inl ⟨hdefines, Or.inl hsurvives⟩
  · exact Or.inr ⟨b, ⟨i, rfl, hphi, hof⟩, .here hpass⟩

/-- **The search for a field is exact**, whatever its bound. -/
theorem searchSent_findDefinitionsAt (hF : FieldWise G F) : ∀ fuel : Nat,
    SearchSent G F (findDefinitionsAt (N := N) (B := B) G fuel) := by
  intro fuel
  induction fuel with
  | zero =>
      intro b ds s s' found _ _ _ hrun
      cases hrun
  | succ fuel ih =>
      intro b ds s s' found h hfields hds hrun
      obtain ⟨-, hD, -, -⟩ := extends_getBBlockDefinitions h b
      have hprocess := fieldExtends_getBBlockDefinitions hF h hfields b
      have hrun : Transformation.addUncoveredFromPredecessors G (findDefinitionsAt G fuel) b
          (getBBlockDefinitions G b s).2 ds ((getBBlockDefinitions G b s).2.get ds)
            (getBBlockDefinitions G b s).1 = some (s', found) := hrun
      have hplace := hprocess.whole.shape.blocks b _ hD
      have hfield := hprocess.shape.blocks b _ hD
      obtain ⟨hextends, hfound⟩ := ih.addUncoveredFromPredecessors hF
        (searchRight_findDefinitionsAt fuel) hplace hfield hprocess.whole.shape hprocess.shape hds hrun
      refine ⟨hprocess.trans hextends, fun x hx => ?_⟩
      obtain hx | hx := hfound x hx
      · exact hfield.sentAt hplace hextends.whole.grows hds hx
      · exact hx

end Search

end Transformation

end Cape.MemorySSA
