import Cape.Library.ReachingDefinitions
import Cape.MemorySSA.OnDemand

/-!
# The definitions of a block

What local value numbering and the PHI nodes leave in the definitions of a block: a node of the block
that defines a byte and is not followed by one that overwrites it is behind the byte, and what is
killed is overwritten in the block or defined by a PHI node (`PlaceRight`).
-/

set_option autoImplicit false

namespace Cape.MemorySSA

open Cape.Library Cape.Library.ReachingDefinitions

universe u v w

/-! ## Numbering -/

section Numbering

variable {N : Type u} [DecidableEq N]

/-- The nodes of a list, each defining its own memory, are in the definitions. -/
structure Numbered (A : N → Annotations N) (l : List N) (D : Definitions N) : Prop where
  tight : D.Tight
  has_of : ∀ t c d, (A d).Defines t c → Survives (fun q => (A q).Overwrites t c) d l →
    D.definitions.Has t c d
  of_has : ∀ t c d, D.definitions.Has t c d →
    ((A d).Defines t c ∨ (A d).WritesUnknown) ∧ Survives (fun q => (A q).Overwrites t c) d l
  kills : ∀ t c, (D.kills.offsets t).Covers c ↔ ∃ q ∈ l, (A q).Overwrites t c
  unknownWrites : ∀ d, d ∈ D.unknownWrites ↔ d ∈ l ∧ (A d).WritesUnknown

theorem numbered_run (A : N → Annotations N) (l : List N) :
    Numbered A l (Definitions.run A (l.map fun x => (x, none))) := by
  have h := Definitions.after_run A (l.map fun x => (x, none))
  refine ⟨h.tight, fun t c d hd hsurvives => ?_, fun t c d hhas => ?_, fun t c => ?_, fun d => ?_⟩
  · obtain ⟨pre, post, rfl, hpost⟩ := hsurvives
    refine (h.has t c d).2 ⟨pre.map fun x => (x, none), (d, none), post.map fun x => (x, none),
      by simp, ⟨rfl, Or.inl hd⟩, fun q hq => ?_⟩
    obtain ⟨x, hx, rfl⟩ := List.mem_map.1 hq
    exact hpost x hx
  · obtain ⟨pre, p, post, heq, ⟨hp, hdefines⟩, hpost⟩ := (h.has t c d).1 hhas
    obtain ⟨pre', rest, rfl, -, hrest⟩ := List.map_eq_append_iff.1 heq
    obtain ⟨x, post', rfl, rfl, rfl⟩ := List.map_eq_cons_iff.1 hrest
    obtain rfl : x = d := hp
    refine ⟨hdefines.imp_right And.left, pre', post', rfl, fun q hq => ?_⟩
    exact hpost (q, none) (List.mem_map_of_mem hq)
  · rw [h.kills t c]
    simp
  · rw [h.unknownWrites d]
    simp [Definitions.defnode]

end Numbering

/-! ## Covering -/

section Covering

variable {N : Type u} [DecidableEq N]

theorem DefinitionsMap.Tight.addNodes {D : DefinitionsMap N} (h : D.Tight) (ds : DefSite N)
    (l : List N) : (D.addNodes ds l).Tight :=
  List.foldlRecOn (motive := DefinitionsMap.Tight) l _ h fun _ hD n _ => hD.add ds n

theorem DefinitionsMap.Tight.has_addNodes {D : DefinitionsMap N} (h : D.Tight) {ds : DefSite N}
    {l : List N} {t : Memory N} {c : Offset} {w : N} :
    (D.addNodes ds l).Has t c w ↔ D.Has t c w ∨ (t = ds.target ∧ c ∈ ds.getInterval ∧ w ∈ l) := by
  induction l generalizing D with
  | nil => simp [DefinitionsMap.addNodes]
  | cons n l ih =>
      have hstep := ih (h.add ds n)
      rw [DefinitionsMap.addNodes] at hstep ⊢
      rw [List.foldl_cons, hstep, h.has_add, List.mem_cons]
      tauto

theorem DefinitionsMap.Tight.covers_add {D : DefinitionsMap N} (h : D.Tight) {ds : DefSite N}
    {n : N} {t : Memory N} {c : Offset} :
    ((D.add ds n).offsets t).Covers c ↔
      (D.offsets t).Covers c ∨ (t = ds.target ∧ c ∈ ds.getInterval) := by
  rw [((h.add ds n) t).ordered.covers_iff, (h t).ordered.covers_iff]
  have hhas : ∀ w, ((D.add ds n).offsets t).Has c w ↔
      (D.offsets t).Has c w ∨ (t = ds.target ∧ c ∈ ds.getInterval ∧ w = n) := fun w => h.has_add
  simp only [hhas, exists_or]
  simp

theorem Definitions.mem_get_of_has {D : Definitions N} {ds : DefSite N} {c : Offset} {d : N}
    (hc : c ∈ ds.getInterval) (h : D.definitions.Has ds.target c d) : d ∈ D.get ds := by
  have hgather : d ∈ D.definitions.get ds :=
    (DisjunctiveIntervalMap.mem_gather_iff (D.definitions.ordered ds.target) ds.start_le_stop).2
      ⟨c, hc, h⟩
  cases hget : D.definitions.get ds with
  | nil =>
      rw [hget] at hgather
      exact absurd hgather List.not_mem_nil
  | cons n ns =>
      rw [Definitions.get, hget]
      rw [hget] at hgather
      exact hgather

omit [DecidableEq N] in
/-- The def-site for an interval has all its bytes. -/
theorem DefSite.mem_getInterval_ofInterval {t : Memory N} {J : DiscreteInterval} {c : Offset}
    (hc : c ∈ J) : c ∈ (ofInterval t J).getInterval := by
  have hJ : J.start ≤ J.stop := hc.1.trans hc.2
  by_cases hsame : (ofInterval t J).getInterval = J
  · rw [hsame]
    exact hc
  · -- the def-site is stretched to the last offset
    have hbound := c.toNat_lt
    by_cases hunknown : (ofInterval t J).offset = .unknown
    · rw [getInterval_of_unknown hunknown, DiscreteInterval.mem_iff, Offset.toNat_unknown,
        Offset.toNat_zero]
      omega
    · have hends : J.start = 0 ∧ J.stop = DisjunctiveIntervalMap.lastByte := by
        rw [getInterval_ofInterval_iff hJ, not_and, not_not] at hsame
        exact hsame hunknown
      have hlen : (ofInterval t J).len = .unknown := by
        show J.stop - J.start + 1 = .unknown
        rw [hends.1, hends.2]
        decide
      rw [DiscreteInterval.mem_iff, toNat_stop hunknown, if_pos (Or.inr hlen),
        getInterval_of_known hunknown]
      have hstart := Offset.le_iff.1 hc.1
      exact ⟨hstart, by omega⟩

omit [DecidableEq N] in
/-- What is not killed is in one of the intervals. -/
theorem Definitions.exists_uncovered {D : Definitions N} (h : D.Tight) {ds : DefSite N} {c : Offset}
    (hc : c ∈ ds.getInterval) (hne : c ≠ .unknown) (hfree : ¬ (D.kills.offsets ds.target).Covers c) :
    ∃ J ∈ D.uncovered ds, c ∈ (DefSite.ofInterval ds.target J).getInterval := by
  have hgaps := DisjunctiveIntervalMap.gaps_uncovered (h.kills ds.target).ordered ds.start_le_stop
  obtain ⟨J, hJ, hmem⟩ := hgaps.all c hc.1 hc.2 hne hfree
  by_cases hsame : D.kills.definesTarget ds.target = false → ds.offset ≠ .unknown
  · rw [uncovered, DefinitionsMap.undefinedIntervals_eq hsame]
    exact ⟨J, hJ, DefSite.mem_getInterval_ofInterval hmem⟩
  · -- at the unknown offset, the interval becomes the whole memory again
    rw [Classical.not_imp, not_not] at hsame
    rw [uncovered, DefinitionsMap.undefinedIntervals_of_absent hsame.1]
    have hagain : ∀ stop, (DefSite.ofInterval ds.target ⟨ds.offset, stop⟩).getInterval =
        ds.getInterval := by
      intro stop
      rw [DefSite.getInterval_of_unknown hsame.2]
      exact DefSite.getInterval_of_unknown hsame.2
    refine ⟨_, List.mem_singleton_self _, ?_⟩
    rw [hagain]
    exact hc

end Covering

section CoverBy

variable {N : Type u} [DecidableEq N]

namespace Transformation

/-- Bytes of the def-sites for the intervals. -/
def InIntervals (t : Memory N) (Js : List DiscreteInterval) (c : Offset) : Prop :=
  ∃ J ∈ Js, c ∈ (DefSite.ofInterval t J).getInterval

/-- What a PHI node does to the definitions: it comes behind the bytes of the intervals, and so do the
writes to unknown memory. -/
structure Covered (phi : RWNode N) (t : Memory (RWNode N)) (Js : List DiscreteInterval)
    (D D' : Definitions (RWNode N)) : Prop where
  tight : D'.Tight
  has : ∀ t' c w, D'.definitions.Has t' c w ↔ D.definitions.Has t' c w ∨
    (t' = t ∧ InIntervals t Js c ∧ (w = phi ∨ w ∈ D.unknownWrites))
  kills : ∀ t' c, (D'.kills.offsets t').Covers c ↔ (D.kills.offsets t').Covers c ∨
    (t' = t ∧ InIntervals t Js c)
  unknownWrites : D'.unknownWrites = D.unknownWrites

theorem covered_coverInterval {phi : RWNode N} {t : Memory (RWNode N)} {D : Definitions (RWNode N)}
    (h : D.Tight) (J : DiscreteInterval) : Covered phi t [J] D (coverInterval phi t D J) := by
  have hadd := h.definitions.add (.ofInterval t J) phi
  have hone : ∀ c, InIntervals t [J] c ↔ c ∈ (DefSite.ofInterval t J).getInterval := by
    simp [InIntervals]
  -- without a write to unknown memory there is nothing more to add
  have hdefinitions : (coverInterval phi t D J).definitions =
      (D.definitions.add (.ofInterval t J) phi).addNodes (.ofInterval t J) D.unknownWrites := by
    show (if D.unknownWrites.isEmpty then _ else _) = _
    cases hwrites : D.unknownWrites with
    | nil => rfl
    | cons n l => rfl
  refine ⟨⟨?_, h.kills.add _ _⟩, fun t' c w => ?_, fun t' c => ?_, rfl⟩
  · rw [hdefinitions]
    exact hadd.addNodes _ _
  · rw [hdefinitions, hadd.has_addNodes, h.definitions.has_add, hone]
    show _ ∨ (t' = t ∧ _) ↔ _ ∨ (t' = t ∧ _)
    have htarget : (DefSite.ofInterval t J).target = t := rfl
    rw [htarget]
    tauto
  · rw [hone]
    exact h.kills.covers_add

theorem covered_cover (phi : RWNode N) (t : Memory (RWNode N)) :
    ∀ (Js : List DiscreteInterval) {D : Definitions (RWNode N)}, D.Tight →
      Covered phi t Js D (Js.foldl (coverInterval phi t) D) := by
  intro Js
  induction Js with
  | nil =>
      intro D h
      exact ⟨h, fun _ _ _ => by simp [InIntervals], fun _ _ => by simp [InIntervals], rfl⟩
  | cons J Js ih =>
      intro D h
      have hfirst : Covered phi t [J] D (coverInterval phi t D J) := covered_coverInterval h J
      have hrest := ih hfirst.tight
      have hcons : ∀ c, InIntervals t (J :: Js) c ↔ InIntervals t [J] c ∨ InIntervals t Js c := by
        intro c
        simp [InIntervals]
      refine ⟨hrest.tight, fun t' c w => ?_, fun t' c => ?_,
        hrest.unknownWrites.trans hfirst.unknownWrites⟩
      · rw [List.foldl_cons, hrest.has, hfirst.has, hfirst.unknownWrites, hcons]
        tauto
      · rw [List.foldl_cons, hrest.kills, hfirst.kills, hcons]
        tauto

end Transformation

end CoverBy

/-! ## What a block has -/

section Blocks

variable {N : Type u} {B : Type v} {S : Type w}

/-- A node that the graph was built with. -/
def RWNode.isNode : RWNode N → Bool
  | .node _ => true
  | _ => false

theorem RWNode.exists_of_isNode {x : RWNode N} (h : x.isNode = true) : ∃ n, x = .node n := by
  cases x with
  | node n => exact ⟨n, rfl⟩
  | phi i => exact absurd h Bool.false_ne_true
  | mu i => exact absurd h Bool.false_ne_true

/-- The annotations of a node that the graph was built with. -/
def ReadWriteGraph.annotations (G : ReadWriteGraph (RWNode N) B S) (x : RWNode N) :
    Annotations (RWNode N) := ⟨G.getDefines x, G.getOverwrites x, G.getUses x⟩

/-- The node overwrites the byte. -/
abbrev ReadWriteGraph.Kills (G : ReadWriteGraph (RWNode N) B S) (t : Memory (RWNode N)) (c : Offset)
    (x : RWNode N) : Prop := (G.annotations x).Overwrites t c

/-- A procedure without calls: its blocks have the nodes that the graph was built with. -/
structure CallFree (G : ReadWriteGraph (RWNode N) B S) : Prop where
  nodes : ∀ b, ∀ x ∈ G.getNodes b, x.isNode = true
  calls : ∀ b, G.getCall b = none
  placed : ∀ n b, G.getBBlock (.node n) = some b → .node n ∈ G.getNodes b

namespace Transformation

variable (G : ReadWriteGraph (RWNode N) B S)

/-- The PHI node defines the byte. -/
def PhiAt (s : Transformation N B) (i : Nat) (t : Memory (RWNode N)) (c : Offset) : Prop :=
  ∃ ds, s.phis[i]? = some ds ∧ ds.target = t ∧ c ∈ ds.getInterval

/-- The node is there: it is not one that is still to be created. -/
structure Known (s : Transformation N B) (x : RWNode N) : Prop where
  phi : ∀ i, x = .phi i → i < s.phis.length
  mu : ∀ i, x = .mu i → i < s.mus.length

/-- The PHI nodes of a block are in front of its other nodes. -/
structure PhisFirst (s : Transformation N B) (b : B) (P R : List (RWNode N)) : Prop where
  eq : s.nodes b = P ++ R
  phis : ∀ x ∈ P, ∃ i, x = .phi i ∧ i < s.phis.length
  rest : ∀ x ∈ R, x.isPhi = false
  nodes : R.filter RWNode.isNode = G.getNodes b

/-- The definitions at a place in a block, behind the nodes `l` of the graph. -/
structure PlaceRight (s : Transformation N B) (b : B) (l : List (RWNode N))
    (D : Definitions (RWNode N)) : Prop where
  tight : D.Tight
  has_of : ∀ t c d, (G.annotations d).Defines t c → Survives (G.Kills t c) d l →
    D.definitions.Has t c d
  /-- what is killed is overwritten, or there is a PHI node of the block -/
  killed : ∀ t c, (D.kills.offsets t).Covers c → (∃ q ∈ l, G.Kills t c q) ∨
    G.predecessors b = [] ∨ ∃ i, D.definitions.Has t c (.phi i) ∧ .phi i ∈ s.nodes b
  known : ∀ t c d, D.definitions.Has t c d → s.Known d
  unknownWrites : ∀ d ∈ D.unknownWrites, d ∈ l ∧ d.isNode = true ∧ (G.annotations d).WritesUnknown

variable {G}

theorem known_phi_iff {s : Transformation N B} {i : Nat} : s.Known (.phi i) ↔ i < s.phis.length := by
  constructor
  · exact fun h => h.phi i rfl
  · intro h
    refine ⟨fun j hj => ?_, nofun⟩
    obtain rfl := RWNode.phi.inj hj
    exact h

theorem known_node (s : Transformation N B) (n : N) : s.Known (.node n) := ⟨nofun, nofun⟩

theorem known_of_isNode {s : Transformation N B} {x : RWNode N} (h : x.isNode = true) : s.Known x := by
  obtain ⟨n, rfl⟩ := RWNode.exists_of_isNode h
  exact known_node s n

theorem getAnnotations_node (s : Transformation N B) (n : N) :
    s.getAnnotations G (.node n) = G.annotations (.node n) := rfl

theorem not_overwrites_mu (s : Transformation N B) (i : Nat) (t : Memory (RWNode N)) (c : Offset) :
    ¬ (s.getAnnotations G (.mu i)).Overwrites t c := by
  rintro ⟨ds, hds, -⟩
  exact absurd hds List.not_mem_nil

/-- A MU node defines nothing. -/
theorem not_defines_mu (s : Transformation N B) (i : Nat) (t : Memory (RWNode N)) (c : Offset) :
    ¬ ((s.getAnnotations G (.mu i)).Defines t c ∨ (s.getAnnotations G (.mu i)).WritesUnknown) := by
  rintro ((⟨ds, hds, -⟩ | hover) | ⟨ds, hds, -⟩)
  · exact absurd hds List.not_mem_nil
  · exact absurd hover (not_overwrites_mu s i t c)
  · exact absurd hds List.not_mem_nil

theorem overwrites_phi_iff {s : Transformation N B} {i : Nat} {t : Memory (RWNode N)} {c : Offset} :
    (s.getAnnotations G (.phi i)).Overwrites t c ↔ s.PhiAt i t c := by
  show (∃ ds ∈ s.phis[i]?.toList, _) ↔ _
  simp only [Option.mem_toList]
  exact Iff.rfl

theorem PhisFirst.of_eq {s s' : Transformation N B} {b : B} {P R : List (RWNode N)}
    (h : s.PhisFirst G b P R) (hnodes : s'.nodes b = s.nodes b)
    (hlength : s.phis.length ≤ s'.phis.length) : s'.PhisFirst G b P R where
  eq := hnodes.trans h.eq
  phis := by
    intro x hx
    obtain ⟨i, hi, hlt⟩ := h.phis x hx
    exact ⟨i, hi, hlt.trans_le hlength⟩
  rest := h.rest
  nodes := h.nodes

/-- Of the nodes of a block, those that the graph was built with. -/
theorem PhisFirst.filter_nodes {s : Transformation N B} {b : B} {P R : List (RWNode N)}
    (h : s.PhisFirst G b P R) : (s.nodes b).filter RWNode.isNode = G.getNodes b := by
  have hnone : P.filter RWNode.isNode = [] := by
    rw [List.filter_eq_nil_iff]
    intro x hx
    obtain ⟨i, rfl, -⟩ := h.phis x hx
    exact Bool.false_ne_true
  rw [h.eq, List.filter_append, hnone, List.nil_append, h.nodes]

theorem PlaceRight.mono {s s' : Transformation N B} {b : B} {l : List (RWNode N)}
    {D : Definitions (RWNode N)} (h : s.PlaceRight G b l D) (hnodes : s.nodes b ⊆ s'.nodes b)
    (hknown : ∀ x, s.Known x → s'.Known x) : s'.PlaceRight G b l D where
  tight := h.tight
  has_of := h.has_of
  killed := fun t c hcovers => (h.killed t c hcovers).imp_right fun h => h.imp_right
    fun ⟨i, hhas, hmem⟩ => ⟨i, hhas, hnodes hmem⟩
  known := fun t c d hhas => hknown d (h.known t c d hhas)
  unknownWrites := h.unknownWrites

/-- The nodes at the front of a block are PHI nodes and others. -/
theorem PhisFirst.of_prefix {s : Transformation N B} {b : B} {P R l : List (RWNode N)}
    (h : s.PhisFirst G b P R) (hl : l <+: s.nodes b) :
    ∃ P' R', l = P' ++ R' ∧ P' ⊆ P ∧ R' ⊆ R ∧ l.filter RWNode.isNode = R'.filter RWNode.isNode := by
  rw [h.eq] at hl
  have hnone : ∀ P' : List (RWNode N), P' ⊆ P → P'.filter RWNode.isNode = [] := by
    intro P' hP'
    rw [List.filter_eq_nil_iff]
    intro x hx
    obtain ⟨i, rfl, -⟩ := h.phis x (hP' hx)
    exact Bool.false_ne_true
  obtain hshort | ⟨R', rfl⟩ := List.prefix_or_prefix_of_prefix hl (List.prefix_append P R)
  · exact ⟨l, [], by simp, hshort.subset, by simp, hnone l hshort.subset⟩
  · have hR' : R' <+: R := (List.prefix_append_right_inj P).1 hl
    refine ⟨P, R', rfl, fun _ hx => hx, hR'.subset, ?_⟩
    rw [List.filter_append, hnone P fun _ hx => hx, List.nil_append]

/-- At the front of a block, all nodes of the graph come behind a PHI node. -/
theorem PhisFirst.behind {s : Transformation N B} {b : B} {P R l : List (RWNode N)}
    (h : s.PhisFirst G b P R) (hl : l <+: s.nodes b) {i : Nat} {pre post : List (RWNode N)}
    (heq : l = pre ++ .phi i :: post) : l.filter RWNode.isNode ⊆ post := by
  obtain ⟨P', R', hl', -, hR', hfilter⟩ := h.of_prefix hl
  have hnot : .phi i ∉ R' := fun hmem => Bool.noConfusion (h.rest _ (hR' hmem))
  have hbehind : R' ⊆ post := by
    obtain ⟨A, -, hA⟩ | ⟨C, -, hC⟩ := List.append_eq_append_iff.1 (hl'.symm.trans heq)
    · exact absurd (hA ▸ List.mem_append_right A List.mem_cons_self) hnot
    · cases C with
      | nil =>
          rw [List.nil_append] at hC
          exact absurd (hC ▸ List.mem_cons_self) hnot
      | cons y C =>
          rw [(List.cons.inj hC).2]
          exact fun x hx => List.mem_append_right C hx
  intro q hq
  rw [hfilter] at hq
  exact hbehind (List.mem_filter.1 hq).1

/-- Behind the nodes at the front of a block, in which the PHI nodes come first. -/
theorem placeRight_number [DecidableEq N] {s : Transformation N B} {b : B} {P R : List (RWNode N)}
    (h : s.PhisFirst G b P R) {l : List (RWNode N)} (hl : l <+: s.nodes b) :
    s.PlaceRight G b (l.filter RWNode.isNode) (s.number G l) := by
  have hnumbered := numbered_run (s.getAnnotations G) l
  obtain ⟨P', R', rfl, hP', hR', hfilter⟩ := h.of_prefix hl
  -- behind the PHI nodes only nodes of the graph overwrite
  have hother : ∀ t c, ∀ x ∈ R', x.isNode = false → ¬ (s.getAnnotations G x).Overwrites t c := by
    intro t c x hx hnode
    cases x with
    | node n => exact Bool.noConfusion hnode
    | phi i => exact Bool.noConfusion (h.rest _ (hR' hx))
    | mu i => exact not_overwrites_mu s i t c
  have hkills : ∀ t c, ∀ q ∈ (P' ++ R').filter RWNode.isNode,
      ((s.getAnnotations G q).Overwrites t c ↔ G.Kills t c q) := by
    intro t c q hq
    obtain ⟨n, rfl⟩ := RWNode.exists_of_isNode (List.mem_filter.1 hq).2
    rw [getAnnotations_node]
  refine ⟨hnumbered.tight, fun t c d hd hsurvives => ?_, fun t c hcovers => ?_, fun t c d hhas => ?_,
    fun d hd => ?_⟩
  · obtain ⟨n, rfl⟩ := RWNode.exists_of_isNode (List.mem_filter.1 hsurvives.mem).2
    refine hnumbered.has_of t c (.node n) hd ?_
    have hsurvives := hsurvives.congr (fun q hq => (hkills t c q hq).symm)
    rw [hfilter, survives_filter (hother t c) rfl] at hsurvives
    exact hsurvives.append_left P'
  · obtain hpass | ⟨a, ha, hsurvives⟩ :=
      @passes_or_survives _ (fun q => (s.getAnnotations G q).Overwrites t c) (P' ++ R')
    · obtain ⟨q, hq, hover⟩ := (hnumbered.kills t c).1 hcovers
      exact absurd hover (hpass q hq)
    · cases a with
      | node n =>
          left
          exact ⟨.node n, List.mem_filter.2 ⟨hsurvives.mem, rfl⟩, ha⟩
      | phi i =>
          right
          right
          exact ⟨i, hnumbered.has_of t c _ (Or.inr ha) hsurvives, hl.subset hsurvives.mem⟩
      | mu i => exact absurd ha (not_overwrites_mu s i t c)
  · obtain ⟨hdefines, hsurvives⟩ := hnumbered.of_has t c _ hhas
    cases d with
    | node n => exact known_node s n
    | phi i =>
        obtain hphi | hphi := List.mem_append.1 hsurvives.mem
        · obtain ⟨j, hj, hlt⟩ := h.phis _ (hP' hphi)
          obtain rfl := RWNode.phi.inj hj
          exact known_phi_iff.2 hlt
        · exact Bool.noConfusion (h.rest _ (hR' hphi))
    | mu i => exact absurd hdefines (not_defines_mu s i t c)
  · obtain ⟨hmem, ds, hds, hunknown⟩ := (hnumbered.unknownWrites d).1 hd
    -- PHI and MU nodes define nothing by themselves
    cases d with
    | node n => exact ⟨List.mem_filter.2 ⟨hmem, rfl⟩, rfl, ds, hds, hunknown⟩
    | phi i => exact absurd hds List.not_mem_nil
    | mu i => exact absurd hds List.not_mem_nil

/-- What a numbering has of a PHI node are bytes that this node defines. -/
theorem phiAt_of_has_number [DecidableEq N] {s : Transformation N B} {l : List (RWNode N)}
    {t : Memory (RWNode N)} {c : Offset} {i : Nat}
    (h : (s.number G l).definitions.Has t c (.phi i)) : s.PhiAt i t c := by
  obtain ⟨hdefines, -⟩ := (numbered_run (s.getAnnotations G) l).of_has t c _ h
  obtain (⟨ds, hds, -⟩ | hover) | ⟨ds, hds, -⟩ := hdefines
  · exact absurd hds List.not_mem_nil
  · exact overwrites_phi_iff.1 hover
  · exact absurd hds List.not_mem_nil

/-- A PHI node is created for the block. -/
theorem PlaceRight.cover [DecidableEq N] {s s' : Transformation N B} {b : B} {l : List (RWNode N)}
    {D : Definitions (RWNode N)} (h : s.PlaceRight G b l D) {i : Nat} (ds : DefSite (RWNode N))
    (hnodes : s.nodes b ⊆ s'.nodes b) (hknown : ∀ x, s.Known x → s'.Known x)
    (hi : s'.Known (.phi i)) (hphi : G.predecessors b = [] ∨ .phi i ∈ s'.nodes b) :
    s'.PlaceRight G b l (cover (.phi i) ds D) := by
  have hcovered := covered_cover (.phi i) ds.target (D.uncovered ds) h.tight
  refine ⟨hcovered.tight, fun t c d hd hsurvives => ?_, fun t c hcovers => ?_, fun t c d hhas => ?_,
    fun d hd => ?_⟩
  · exact (hcovered.has t c d).2 (Or.inl (h.has_of t c d hd hsurvives))
  · obtain hcovers | ⟨rfl, hJ⟩ := (hcovered.kills t c).1 hcovers
    · obtain hkill | hroot | ⟨j, hhas, hmem⟩ := h.killed t c hcovers
      · exact Or.inl hkill
      · exact Or.inr (Or.inl hroot)
      · exact Or.inr (Or.inr ⟨j, (hcovered.has t c _).2 (Or.inl hhas), hnodes hmem⟩)
    · refine Or.inr (hphi.imp_right fun hmem => ⟨i, ?_, hmem⟩)
      exact (hcovered.has _ c _).2 (Or.inr ⟨rfl, hJ, Or.inl rfl⟩)
  · obtain hold | ⟨-, -, rfl | hunknown⟩ := (hcovered.has t c _).1 hhas
    · exact hknown d (h.known t c d hold)
    · exact hi
    · exact known_of_isNode (h.unknownWrites _ hunknown).2.1
  · have hsame : (Transformation.cover (.phi i) ds D).unknownWrites = D.unknownWrites :=
      hcovered.unknownWrites
    rw [hsame] at hd
    exact h.unknownWrites d hd

/-- What `get` returns is there. -/
theorem PlaceRight.known_of_mem_get [DecidableEq N] {s : Transformation N B} {b : B}
    {l : List (RWNode N)} {D : Definitions (RWNode N)} (h : s.PlaceRight G b l D)
    {ds : DefSite (RWNode N)} {d : RWNode N} (hd : d ∈ D.get ds) : s.Known d := by
  rw [Definitions.get] at hd
  cases hget : D.definitions.get ds with
  | nil =>
      rw [hget, List.mem_dedup] at hd
      exact known_of_isNode (h.unknownWrites d hd).2.1
  | cons n ns =>
      have hd : d ∈ D.definitions.get ds := by
        rw [hget] at hd ⊢
        exact hd
      obtain ⟨c, -, hhas⟩ := (DisjunctiveIntervalMap.mem_gather_iff
        (D.definitions.ordered ds.target) ds.start_le_stop).1 hd
      exact h.known _ c d hhas

end Transformation

end Blocks

end Cape.MemorySSA
