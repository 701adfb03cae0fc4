import Cape.Library.FallibleLoop
import Cape.Library.PhiWeb
import Cape.MemorySSA.OnDemandBlocks

/-!
# The search is complete

What the search for the definitions of a def-site at the end of a block returns answers this search for
every byte, and so do the operands of the PHI nodes that it creates, provided that no PHI node stands
for bytes that it was not created for (`OwnBytes`): `searchRight_findDefinitionsAt`.
-/

set_option autoImplicit false

namespace Cape.MemorySSA

open Cape.Library Cape.Library.ReachingDefinitions

universe u v w

namespace Transformation

variable {N : Type u} {B : Type v} {S : Type w}
variable (G : ReadWriteGraph (RWNode N) B S)

/-! ## States -/

/-- A PHI node of the block that defines the byte. -/
def PhiOf (s : Transformation N B) (t : Memory (RWNode N)) (c : Offset) (b : B) (x : RWNode N) : Prop :=
  x ∈ s.nodes b ∧ ∃ i, x = .phi i ∧ s.PhiAt i t c

/-- What was found answers the search for the byte, from a place in the block. -/
abbrev AnswersAt (s : Transformation N B) (t : Memory (RWNode N)) (c : Offset)
    (found : List (RWNode N)) (b : B) (l : List (RWNode N)) : Prop :=
  Answers (G.Kills t c) (fun d => (G.annotations d).Defines t c) G.getNodes G.predecessors (s.PhiOf t c)
    found b l

/-- The operands of the PHI node answer the searches in the predecessors. -/
def CompletePhi [DecidableEq N] (s : Transformation N B) (i : Nat) : Prop :=
  ∀ b, .phi i ∈ s.nodes b → ∀ t c, c ≠ .unknown → s.PhiAt i t c → ∀ p ∈ G.predecessors b,
    s.AnswersAt G t c (s.operands (.phi i)) p (G.getNodes p)

/-- In the definitions of the blocks, PHI nodes are only behind bytes that they were created for. -/
def OwnBytes (s : Transformation N B) : Prop :=
  ∀ b D, s.definitions b = some D → ∀ t c i, D.definitions.Has t c (.phi i) → s.PhiAt i t c

/-- What holds of the state throughout. -/
structure Shape (s : Transformation N B) : Prop where
  phisFirst : ∀ b, ∃ P R, s.PhisFirst G b P R
  blocks : ∀ b D, s.definitions b = some D → s.PlaceRight G b (G.getNodes b) D
  mu_lt : ∀ b i, .mu i ∈ s.nodes b → i < s.mus.length
  defuse_phi : ∀ i, s.phis.length ≤ i → s.defuse (.phi i) = none
  defuse_mu : ∀ i, s.mus.length ≤ i → s.defuse (.mu i) = none

/-- The nodes of the graph that come before the node in its block. -/
def before [DecidableEq N] (s : Transformation N B) (b : B) (x : RWNode N) : List (RWNode N) :=
  ((s.nodes b).takeWhile (· ≠ x)).filter RWNode.isNode

/-- What a search may change: nodes come, and those that were there stay as they are. -/
structure Grows [DecidableEq N] (s t : Transformation N B) : Prop where
  phis : s.phis <+: t.phis
  mus : s.mus <+: t.mus
  nodes : ∀ b, s.nodes b ⊆ t.nodes b
  known : ∀ b x, x ∈ t.nodes b → s.Known x → x ∈ s.nodes b
  before : ∀ b x, x.isPhi = false → s.Known x → t.before b x = s.before b x
  defuse : ∀ x, s.Known x → t.defuse x = s.defuse x
  definitions : ∀ b D, s.definitions b = some D → ∃ D', t.definitions b = some D' ∧
    (∀ t c x, D.definitions.Has t c x → D'.definitions.Has t c x) ∧
    ∀ t c, (D.kills.offsets t).Covers c → (D'.kills.offsets t).Covers c

variable {G}

theorem PhiAt.lt {s : Transformation N B} {i : Nat} {t : Memory (RWNode N)} {c : Offset}
    (h : s.PhiAt i t c) : i < s.phis.length := by
  obtain ⟨ds, hds, -⟩ := h
  exact (List.getElem?_eq_some_iff.1 hds).1

theorem Shape.mem_lt {s : Transformation N B} (h : s.Shape G) {b : B} {i : Nat}
    (hi : .phi i ∈ s.nodes b) : i < s.phis.length := by
  obtain ⟨P, R, hfirst⟩ := h.phisFirst b
  rw [hfirst.eq] at hi
  obtain hi | hi := List.mem_append.1 hi
  · obtain ⟨j, hj, hlt⟩ := hfirst.phis _ hi
    obtain rfl := RWNode.phi.inj hj
    exact hlt
  · exact Bool.noConfusion (hfirst.rest _ hi)

namespace Grows

variable [DecidableEq N] {s t u : Transformation N B}

theorem refl (s : Transformation N B) : s.Grows s where
  phis := List.prefix_rfl
  mus := List.prefix_rfl
  nodes := fun _ _ hx => hx
  known := fun _ _ hx _ => hx
  before := fun _ _ _ _ => rfl
  defuse := fun _ _ => rfl
  definitions := fun _ D hD => ⟨D, hD, fun _ _ _ h => h, fun _ _ h => h⟩

theorem knows (h : s.Grows t) {x : RWNode N} (hx : s.Known x) : t.Known x where
  phi := fun i hi => (hx.phi i hi).trans_le h.phis.length_le
  mu := fun i hi => (hx.mu i hi).trans_le h.mus.length_le

theorem trans (h : s.Grows t) (h' : t.Grows u) : s.Grows u where
  phis := h.phis.trans h'.phis
  mus := h.mus.trans h'.mus
  nodes := fun b _ hx => h'.nodes b (h.nodes b hx)
  known := fun b x hx hknown => h.known b x (h'.known b x hx (h.knows hknown)) hknown
  before := fun b x hx hknown => (h'.before b x hx (h.knows hknown)).trans (h.before b x hx hknown)
  defuse := fun x hx => (h'.defuse x (h.knows hx)).trans (h.defuse x hx)
  definitions := by
    intro b D hD
    obtain ⟨D', hD', hhas, hkills⟩ := h.definitions b D hD
    obtain ⟨D'', hD'', hhas', hkills'⟩ := h'.definitions b D' hD'
    exact ⟨D'', hD'', fun t c x hx => hhas' t c x (hhas t c x hx),
      fun t c hc => hkills' t c (hkills t c hc)⟩

theorem phiAt_iff (h : s.Grows t) {i : Nat} (hi : i < s.phis.length) {m : Memory (RWNode N)}
    {c : Offset} : t.PhiAt i m c ↔ s.PhiAt i m c := by
  obtain ⟨created, hphis⟩ := h.phis
  rw [PhiAt, PhiAt, ← hphis, List.getElem?_append_left hi]

theorem phiOf (h : s.Grows t) {m : Memory (RWNode N)} {c : Offset} {b : B} {x : RWNode N}
    (hx : s.PhiOf m c b x) : t.PhiOf m c b x := by
  obtain ⟨hmem, i, rfl, hat⟩ := hx
  exact ⟨h.nodes b hmem, i, rfl, (h.phiAt_iff hat.lt).2 hat⟩

theorem answersAt (h : s.Grows t) {m : Memory (RWNode N)} {c : Offset} {found found' : List (RWNode N)}
    {b : B} {l : List (RWNode N)} (ha : s.AnswersAt G m c found b l) (hfound : found ⊆ found') :
    t.AnswersAt G m c found' b l :=
  ha.mono hfound fun _ _ hx => h.phiOf hx

theorem operands_eq (h : s.Grows t) {x : RWNode N} (hx : s.Known x) : t.operands x = s.operands x := by
  rw [operands, operands, h.defuse x hx]

/-- An earlier state has no more wrong bytes. -/
theorem ownBytes (h : s.Grows t) (hs : s.Shape G) (hown : t.OwnBytes) : s.OwnBytes := by
  intro b D hD m c i hhas
  obtain ⟨D', hD', hmore, -⟩ := h.definitions b D hD
  rw [← h.phiAt_iff (known_phi_iff.1 ((hs.blocks b D hD).known m c _ hhas))]
  exact hown b D' hD' m c i (hmore m c _ hhas)

theorem completePhi (h : s.Grows t) {i : Nat} (hi : i < s.phis.length) (hc : s.CompletePhi G i) :
    t.CompletePhi G i := by
  intro b hb m c hne hat p hp
  have hknown : s.Known (.phi i) := known_phi_iff.2 hi
  rw [h.operands_eq hknown]
  exact h.answersAt (hc b (h.known b _ hb hknown) m c hne ((h.phiAt_iff hi).1 hat) p hp)
    fun _ hx => hx

end Grows

variable (G) in
/-- What a search does to a state of this shape: the operands of the PHI nodes it creates answer. -/
structure Extends [DecidableEq N] (s t : Transformation N B) : Prop where
  shape : t.Shape G
  grows : s.Grows t
  complete : t.OwnBytes → ∀ i, s.phis.length ≤ i → t.CompletePhi G i
  closed : ∀ i, s.phis.length ≤ i → ∀ y ∈ t.operands (.phi i), t.Known y

section Extends

variable [DecidableEq N] {s t u : Transformation N B}

/-- There is nothing to say about PHI nodes that are still to be created. -/
theorem Shape.completePhi_of_le (h : s.Shape G) {i : Nat} (hi : s.phis.length ≤ i) :
    s.CompletePhi G i :=
  fun _ hb => absurd (h.mem_lt hb) (Nat.not_lt.2 hi)

omit [DecidableEq N] in
theorem Shape.operands_of_le (h : s.Shape G) {i : Nat} (hi : s.phis.length ≤ i) :
    s.operands (.phi i) = [] := by
  show (s.defuse (.phi i)).getD [] = []
  rw [h.defuse_phi i hi]
  rfl

theorem Extends.of_length (h : t.Shape G) (hgrows : s.Grows t)
    (hlength : t.phis.length = s.phis.length) : s.Extends G t where
  shape := h
  grows := hgrows
  complete := fun _ _ hi => h.completePhi_of_le (hlength ▸ hi)
  closed := by
    intro i hi y hy
    rw [h.operands_of_le (hlength ▸ hi)] at hy
    exact absurd hy List.not_mem_nil

theorem Extends.refl (h : s.Shape G) : s.Extends G s := .of_length h (.refl s) rfl

theorem Extends.trans (h : s.Extends G t) (h' : t.Extends G u) : s.Extends G u where
  shape := h'.shape
  grows := h.grows.trans h'.grows
  complete := by
    intro hown i hi
    -- the first search created the PHI node, or the second one
    obtain hlt | hge := Nat.lt_or_ge i t.phis.length
    · exact h'.grows.completePhi hlt (h.complete (h'.grows.ownBytes h.shape hown) i hi)
    · exact h'.complete hown i hge
  closed := by
    intro i hi y hy
    obtain hlt | hge := Nat.lt_or_ge i t.phis.length
    · rw [h'.grows.operands_eq (known_phi_iff.2 hlt)] at hy
      exact h'.grows.knows (h.closed i hi y hy)
    · exact h'.closed i hge y hy

end Extends

/-! ## Blocks -/

section Blocks

variable [DecidableEq N] {s : Transformation N B}

/-- Behind all nodes of a block. -/
theorem Shape.placeRight_nodes (h : s.Shape G) (b : B) :
    s.PlaceRight G b (G.getNodes b) (s.number G (s.nodes b)) := by
  obtain ⟨P, R, hfirst⟩ := h.phisFirst b
  rw [← hfirst.filter_nodes]
  exact placeRight_number hfirst (List.prefix_refl (s.nodes b))

theorem Shape.placeRight_before (h : s.Shape G) (b : B) (x : RWNode N) :
    s.PlaceRight G b (s.before b x) (findDefinitionsInBlock G s b x) := by
  obtain ⟨P, R, hfirst⟩ := h.phisFirst b
  exact placeRight_number hfirst (List.takeWhile_prefix _)

variable [DecidableEq B]

/-- The state gets definitions of a block that was not processed. -/
theorem extends_process (h : s.Shape G) {b : B} (hD : s.definitions b = none) :
    s.Extends G { s with
      definitions := Function.update s.definitions b (some (s.number G (s.nodes b))) } := by
  refine .of_length ⟨fun b' => ?_, fun b' D' hD' => ?_, h.mu_lt, h.defuse_phi, h.defuse_mu⟩ ?_ rfl
  · obtain ⟨P, R, hfirst⟩ := h.phisFirst b'
    exact ⟨P, R, hfirst.of_eq rfl le_rfl⟩
  · refine PlaceRight.mono (s := s) ?_ (fun _ hx => hx) fun x hx => ⟨hx.phi, hx.mu⟩
    have hD' : Function.update s.definitions b (some (s.number G (s.nodes b))) b' = some D' := hD'
    by_cases hb : b' = b
    · subst hb
      rw [Function.update_self] at hD'
      obtain rfl := Option.some.inj hD'
      exact h.placeRight_nodes b'
    · rw [Function.update_of_ne hb] at hD'
      exact h.blocks b' D' hD'
  · have hdefinitions : ∀ b' D', s.definitions b' = some D' →
        Function.update s.definitions b (some (s.number G (s.nodes b))) b' = some D' := by
      intro b' D' hD'
      rw [Function.update_of_ne]
      · exact hD'
      · rintro rfl
        rw [hD] at hD'
        cases hD'
    exact { Grows.refl s with
      definitions := fun b' D' hD' =>
        ⟨D', hdefinitions b' D' hD', fun _ _ _ hx => hx, fun _ _ hx => hx⟩ }

/-- What `getBBlockDefinitions` returns and leaves. -/
theorem extends_getBBlockDefinitions (h : s.Shape G) (b : B) :
    s.Extends G (getBBlockDefinitions G b s).1 ∧
      (getBBlockDefinitions G b s).1.definitions b = some (getBBlockDefinitions G b s).2 ∧
      (getBBlockDefinitions G b s).1.nodes = s.nodes ∧
      (getBBlockDefinitions G b s).1.phis = s.phis := by
  rw [getBBlockDefinitions]
  cases hD : s.definitions b with
  | some D => exact ⟨.refl h, hD, rfl, rfl⟩
  | none => exact ⟨extends_process h hD, Function.update_self _ _ _, rfl, rfl⟩

/-! ## PHI nodes -/

/-- The state with one more PHI node, which has no operands yet. -/
def withPhi (s : Transformation N B) (b : B) (ds : DefSite (RWNode N)) (D : Definitions (RWNode N))
    (nodes : List (RWNode N)) : Transformation N B :=
  { s with
    phis := s.phis ++ [ds]
    definitions := Function.update s.definitions b (some (cover (.phi s.phis.length) ds D))
    nodes := Function.update s.nodes b nodes }

omit [DecidableEq N] [DecidableEq B] in
theorem phiAt_new {s t : Transformation N B} {ds : DefSite (RWNode N)} (h : s.phis ++ [ds] <+: t.phis)
    {m : Memory (RWNode N)} {c : Offset} :
    t.PhiAt s.phis.length m c ↔ m = ds.target ∧ c ∈ ds.getInterval := by
  obtain ⟨created, hphis⟩ := h
  have hnew : t.phis[s.phis.length]? = some ds := by
    rw [← hphis, List.append_assoc, List.getElem?_append_right le_rfl]
    simp
  rw [PhiAt, hnew]
  constructor
  · rintro ⟨ds', hds', rfl, hc⟩
    obtain rfl := Option.some.inj hds'
    exact ⟨rfl, hc⟩
  · rintro ⟨rfl, hc⟩
    exact ⟨ds, rfl, rfl, hc⟩

section WithPhi

variable {b : B} {ds : DefSite (RWNode N)} {D : Definitions (RWNode N)} {nodes : List (RWNode N)}

theorem length_withPhi : (s.withPhi b ds D nodes).phis.length = s.phis.length + 1 := by
  show (s.phis ++ [ds]).length = _
  rw [List.length_append, List.length_singleton]

theorem nodes_withPhi_self : (s.withPhi b ds D nodes).nodes b = nodes := Function.update_self _ _ _

theorem nodes_withPhi_of_ne {b' : B} (hb : b' ≠ b) :
    (s.withPhi b ds D nodes).nodes b' = s.nodes b' := Function.update_of_ne hb _ _

theorem Known.withPhi {x : RWNode N} (hx : s.Known x) : (s.withPhi b ds D nodes).Known x := by
  refine ⟨fun i hi => ?_, hx.mu⟩
  rw [length_withPhi]
  exact (hx.phi i hi).trans (Nat.lt_succ_self _)

/-- In front of the nodes of a block, or in none when the block has no predecessors. -/
theorem subset_nodes_withPhi
    (hnodes : (nodes = s.nodes b ∧ G.predecessors b = []) ∨ nodes = .phi s.phis.length :: s.nodes b)
    (b' : B) : s.nodes b' ⊆ (s.withPhi b ds D nodes).nodes b' := by
  intro x hx
  by_cases hb : b' = b
  · subst hb
    rw [nodes_withPhi_self]
    obtain ⟨rfl, -⟩ | rfl := hnodes
    · exact hx
    · exact List.mem_cons_of_mem _ hx
  · rw [nodes_withPhi_of_ne hb]
    exact hx

/-- The PHI nodes stay in front. -/
theorem PhisFirst.withPhi {b' : B} {P R : List (RWNode N)} (h : s.PhisFirst G b' P R)
    (hnodes : (nodes = s.nodes b ∧ G.predecessors b = []) ∨
      nodes = .phi s.phis.length :: s.nodes b) :
    ∃ P' R', (s.withPhi b ds D nodes).PhisFirst G b' P' R' := by
  have hwider : s.phis.length ≤ (s.withPhi b ds D nodes).phis.length := by
    rw [length_withPhi]
    exact Nat.le_succ _
  by_cases hb : b' = b
  · subst hb
    obtain ⟨rfl, -⟩ | rfl := hnodes
    · exact ⟨P, R, h.of_eq nodes_withPhi_self hwider⟩
    · refine ⟨.phi s.phis.length :: P, R, ?_, fun x hx => ?_, h.rest, h.nodes⟩
      · rw [nodes_withPhi_self, h.eq]
        rfl
      · obtain rfl | hx := List.mem_cons.1 hx
        · refine ⟨_, rfl, ?_⟩
          rw [length_withPhi]
          exact Nat.lt_succ_self _
        · obtain ⟨i, rfl, hi⟩ := h.phis x hx
          exact ⟨i, rfl, hi.trans_le hwider⟩
  · exact ⟨P, R, h.of_eq (nodes_withPhi_of_ne hb) hwider⟩

theorem Shape.withPhi (h : s.Shape G) (ds : DefSite (RWNode N)) (hD : s.definitions b = some D)
    (hnodes : (nodes = s.nodes b ∧ G.predecessors b = []) ∨
      nodes = .phi s.phis.length :: s.nodes b) : (s.withPhi b ds D nodes).Shape G where
  phisFirst := by
    intro b'
    obtain ⟨P, R, hfirst⟩ := h.phisFirst b'
    exact hfirst.withPhi hnodes
  blocks := by
    intro b' D' hD'
    have hD' : Function.update s.definitions b (some (cover (.phi s.phis.length) ds D)) b' =
        some D' := hD'
    by_cases hb : b' = b
    · subst hb
      rw [Function.update_self] at hD'
      obtain rfl := Option.some.inj hD'
      refine (h.blocks b' D hD).cover ds (subset_nodes_withPhi hnodes b') (fun _ hx => hx.withPhi)
        (known_phi_iff.2 ?_) ?_
      · rw [length_withPhi]
        exact Nat.lt_succ_self _
      · -- what the PHI node stands for is killed by it, or the block is the entry
        rw [nodes_withPhi_self]
        obtain ⟨-, hroot⟩ | rfl := hnodes
        · exact Or.inl hroot
        · exact Or.inr List.mem_cons_self
    · rw [Function.update_of_ne hb] at hD'
      exact (h.blocks b' D' hD').mono (subset_nodes_withPhi hnodes b') fun _ hx => hx.withPhi
  mu_lt := by
    intro b' i hi
    by_cases hb : b' = b
    · subst hb
      rw [nodes_withPhi_self] at hi
      obtain ⟨rfl, -⟩ | rfl := hnodes
      · exact h.mu_lt b' i hi
      · obtain hi | hi := List.mem_cons.1 hi
        · cases hi
        · exact h.mu_lt b' i hi
    · rw [nodes_withPhi_of_ne hb] at hi
      exact h.mu_lt b' i hi
  defuse_phi := by
    intro i hi
    rw [length_withPhi] at hi
    exact h.defuse_phi i (Nat.le_of_succ_le hi)
  defuse_mu := h.defuse_mu

theorem Shape.grows_withPhi (h : s.Shape G) (ds : DefSite (RWNode N)) (hD : s.definitions b = some D)
    (hnodes : (nodes = s.nodes b ∧ G.predecessors b = []) ∨
      nodes = .phi s.phis.length :: s.nodes b) : s.Grows (s.withPhi b ds D nodes) where
  phis := List.prefix_append _ _
  mus := List.prefix_rfl
  nodes := subset_nodes_withPhi hnodes
  known := by
    intro b' x hx hknown
    by_cases hb : b' = b
    · subst hb
      rw [nodes_withPhi_self] at hx
      obtain ⟨rfl, -⟩ | rfl := hnodes
      · exact hx
      · obtain rfl | hx := List.mem_cons.1 hx
        · exact absurd (known_phi_iff.1 hknown) (lt_irrefl _)
        · exact hx
    · rw [nodes_withPhi_of_ne hb] at hx
      exact hx
  before := by
    intro b' x hx _
    rw [before, before]
    by_cases hb : b' = b
    · subst hb
      rw [nodes_withPhi_self]
      obtain ⟨rfl, -⟩ | rfl := hnodes
      · rfl
      · -- the PHI node comes before the place
        have hne : RWNode.phi s.phis.length ≠ x := by
          rintro rfl
          exact Bool.noConfusion hx
        rw [List.takeWhile_cons_of_pos (by simp [hne]), List.filter_cons_of_neg Bool.false_ne_true]
    · rw [nodes_withPhi_of_ne hb]
  defuse := fun _ _ => rfl
  definitions := by
    intro b' D' hD'
    by_cases hb : b' = b
    · subst hb
      rw [hD] at hD'
      obtain rfl := Option.some.inj hD'
      -- what was behind a byte stays, and what was killed stays killed
      have hcovered := covered_cover (.phi s.phis.length) ds.target (D.uncovered ds)
        (h.blocks b' D hD).tight
      exact ⟨_, Function.update_self _ _ _, fun m c x hx => (hcovered.has m c x).2 (Or.inl hx),
        fun m c hc => (hcovered.kills m c).2 (Or.inl hc)⟩
    · exact ⟨D', (Function.update_of_ne hb _ _).trans hD', fun _ _ _ hx => hx, fun _ _ hx => hx⟩

end WithPhi

/-- A new PHI node is in one block only. -/
theorem eq_of_mem_new (h : s.Shape G) {b b' : B} {ds : DefSite (RWNode N)}
    {D : Definitions (RWNode N)} {t : Transformation N B}
    (hgrows : (s.withPhi b ds D (.phi s.phis.length :: s.nodes b)).Grows t)
    (hmem : .phi s.phis.length ∈ t.nodes b') : b' = b := by
  have hlength : (s.phis ++ [ds]).length = s.phis.length + 1 := by
    rw [List.length_append, List.length_singleton]
  have hold := hgrows.known b' _ hmem (known_phi_iff.2 (by
    show s.phis.length < (s.phis ++ [ds]).length
    omega))
  by_contra hb
  have hold : _ ∈ Function.update s.nodes b (.phi s.phis.length :: s.nodes b) b' := hold
  rw [Function.update_of_ne hb] at hold
  exact lt_irrefl _ (h.mem_lt hold)

/-- The states of `createPhi`, from the definitions of the block. -/
theorem createPhiIn_eq (b : B) (ds : DefSite (RWNode N)) : createPhiIn G b ds s =
    ((getBBlockDefinitions G b s).1.withPhi b ds (getBBlockDefinitions G b s).2
        ((getBBlockDefinitions G b s).1.nodes b),
      .phi (getBBlockDefinitions G b s).1.phis.length) := by
  rw [createPhiIn, withPhi, Function.update_eq_self]
  rfl

theorem known_createPhiIn (b : B) (ds : DefSite (RWNode N)) :
    (createPhiIn G b ds s).1.Known (createPhiIn G b ds s).2 := by
  rw [createPhiIn_eq, known_phi_iff]
  show _ < (_ ++ [ds]).length
  rw [List.length_append, List.length_singleton]
  exact Nat.lt_succ_self _

theorem createAndPlacePhi_eq (b : B) (ds : DefSite (RWNode N)) : createAndPlacePhi G b ds s =
    ((getBBlockDefinitions G b s).1.withPhi b ds (getBBlockDefinitions G b s).2
        (.phi (getBBlockDefinitions G b s).1.phis.length :: (getBBlockDefinitions G b s).1.nodes b),
      .phi (getBBlockDefinitions G b s).1.phis.length) := rfl

/-- The PHI node for the input of a procedure. -/
theorem extends_createPhiIn (h : s.Shape G) {b : B} (hroot : G.predecessors b = [])
    (ds : DefSite (RWNode N)) : s.Extends G (createPhiIn G b ds s).1 := by
  obtain ⟨hprocess, hD, -, -⟩ := extends_getBBlockDefinitions h b
  rw [createPhiIn_eq]
  have hshape := hprocess.shape.withPhi ds hD (Or.inl ⟨rfl, hroot⟩)
  have hgrows := hprocess.shape.grows_withPhi ds hD (Or.inl ⟨rfl, hroot⟩)
  refine hprocess.trans ⟨hshape, hgrows, fun _ i hi b' hb' => ?_, fun i hi y hy => ?_⟩
  · -- it is in no block
    have hmem : .phi i ∈ Function.update (getBBlockDefinitions G b s).1.nodes b
        ((getBBlockDefinitions G b s).1.nodes b) b' := hb'
    rw [Function.update_eq_self] at hmem
    exact absurd (hprocess.shape.mem_lt hmem) (Nat.not_lt.2 hi)
  · have hy : y ∈ (getBBlockDefinitions G b s).1.operands (.phi i) := hy
    rw [hprocess.shape.operands_of_le hi] at hy
    exact absurd hy List.not_mem_nil

end Blocks

/-! ## Loops -/

section Loops

variable [DecidableEq N]

/-- A loop over searches: each adds to what was found, and what it says of its element stays. -/
theorem loop_right {ι : Type*} {f : Transformation N B × List (RWNode N) → ι →
      Option (Transformation N B × List (RWNode N))}
    {Q : ι → Transformation N B → List (RWNode N) → Prop}
    (hQ : ∀ {a s t l l'}, s.Grows t → l ⊆ l' → Q a s l → Q a t l') {l : List ι}
    {p q : Transformation N B × List (RWNode N)}
    (hstep : ∀ a ∈ l, ∀ mid mid', p.1.Extends G mid.1 → f mid a = some mid' →
      mid.1.Extends G mid'.1 ∧ mid.2 ⊆ mid'.2 ∧ (∀ x ∈ mid'.2, x ∈ mid.2 ∨ mid'.1.Known x) ∧
        (mid'.1.OwnBytes → Q a mid'.1 mid'.2))
    (h : p.1.Shape G) (hrun : l.foldlM f p = some q) :
    p.1.Extends G q.1 ∧ p.2 ⊆ q.2 ∧ (∀ x ∈ q.2, x ∈ p.2 ∨ q.1.Known x) ∧
      (q.1.OwnBytes → ∀ a ∈ l, Q a q.1 q.2) := by
  refine FallibleLoop.prefix_induction (I := fun l₁ q => p.1.Extends G q.1 ∧ p.2 ⊆ q.2 ∧
    (∀ x ∈ q.2, x ∈ p.2 ∨ q.1.Known x) ∧ (q.1.OwnBytes → ∀ a ∈ l₁, Q a q.1 q.2)) ?_
    ⟨.refl h, fun _ hx => hx, fun _ hx => Or.inl hx, nofun⟩ hrun
  rintro l₁ a l₂ rfl t t' ⟨hextends, hfound, hknown, hdone⟩ ht'
  obtain ⟨hextends', hfound', hknown', hdone'⟩ :=
    hstep a (List.mem_append_right l₁ List.mem_cons_self) t t' hextends ht'
  refine ⟨hextends.trans hextends', fun x hx => hfound' (hfound hx), fun x hx => ?_, fun hown b hb => ?_⟩
  · obtain hx | hx := hknown' x hx
    · exact (hknown x hx).imp_right hextends'.grows.knows
    · exact Or.inr hx
  · -- what is said of the elements before stays when the state grows
    obtain hb | hb := List.mem_append.1 hb
    · exact hQ hextends'.grows hfound' (hdone (hextends'.grows.ownBytes hextends.shape hown) b hb)
    · rw [List.mem_singleton.1 hb]
      exact hdone' hown

end Loops

/-! ## Operands -/

section Operands

variable [DecidableEq N] {s t : Transformation N B}

theorem mem_addDefUse {x d : RWNode N} {defs : List (RWNode N)} :
    d ∈ ((s.addDefUse x defs).defuse x).getD [] ↔ d ∈ (s.defuse x).getD [] ∨ d ∈ defs := by
  have hfold : ∀ l : List (RWNode N), d ∈ defs.foldl (fun l d => if d ∈ l then l else l ++ [d]) l ↔
      d ∈ l ∨ d ∈ defs := by
    induction defs with
    | nil => simp
    | cons e defs ih =>
        intro l
        rw [List.foldl_cons, ih, List.mem_cons]
        split
        · next he =>
            constructor
            · exact Or.imp_right Or.inr
            · rintro (hd | rfl | hd)
              · exact Or.inl hd
              · exact Or.inl he
              · exact Or.inr hd
        · rw [List.mem_append, List.mem_singleton, or_assoc]
  rw [addDefUse]
  dsimp only
  rw [Function.update_self, Option.getD_some, hfold]

theorem addDefUse_of_ne {x y : RWNode N} (defs : List (RWNode N)) (h : y ≠ x) :
    (s.addDefUse x defs).defuse y = s.defuse y := Function.update_of_ne h _ _

theorem Shape.addDefUse (h : s.Shape G) {x : RWNode N} (hx : s.Known x) (defs : List (RWNode N)) :
    (s.addDefUse x defs).Shape G where
  phisFirst := fun b =>
    have ⟨P, R, hfirst⟩ := h.phisFirst b
    ⟨P, R, hfirst.of_eq rfl le_rfl⟩
  blocks := fun b D hD => (h.blocks b D hD).mono (fun _ hx => hx) fun x hx => ⟨hx.phi, hx.mu⟩
  mu_lt := h.mu_lt
  defuse_phi := by
    intro i hi
    have hi : s.phis.length ≤ i := hi
    rw [addDefUse_of_ne]
    · exact h.defuse_phi i hi
    · rintro rfl
      exact absurd (hx.phi i rfl) (Nat.not_lt.2 hi)
  defuse_mu := by
    intro i hi
    have hi : s.mus.length ≤ i := hi
    rw [addDefUse_of_ne]
    · exact h.defuse_mu i hi
    · rintro rfl
      exact absurd (hx.mu i rfl) (Nat.not_lt.2 hi)

theorem Grows.addDefUse (h : s.Grows t) {x : RWNode N} (hx : ¬ s.Known x) (defs : List (RWNode N)) :
    s.Grows (t.addDefUse x defs) where
  phis := h.phis
  mus := h.mus
  nodes := h.nodes
  known := h.known
  before := h.before
  defuse := by
    intro y hy
    rw [addDefUse_of_ne]
    · exact h.defuse y hy
    · rintro rfl
      exact hx hy
  definitions := h.definitions

theorem CompletePhi.addDefUse {i : Nat} (h : s.CompletePhi G i) (x : RWNode N)
    (defs : List (RWNode N)) : (s.addDefUse x defs).CompletePhi G i := by
  intro b hb t c hne hat p hp
  refine (h b hb t c hne hat p hp).mono (fun d hd => ?_) fun _ _ hphi => hphi
  have hd : d ∈ (s.defuse (.phi i)).getD [] := hd
  show d ∈ ((s.addDefUse x defs).defuse (.phi i)).getD []
  by_cases hx : x = .phi i
  · subst hx
    exact mem_addDefUse.2 (Or.inl hd)
  · rw [addDefUse_of_ne defs (Ne.symm hx)]
    exact hd

end Operands

/-! ## The search -/

section Search

variable [DecidableEq N]

variable (G) in
/-- What was found in front of a block: nothing is there, the search went on in the only predecessor,
or it found a PHI node. -/
def AnswersBefore (s : Transformation N B) (t : Memory (RWNode N)) (c : Offset)
    (found : List (RWNode N)) (b : B) : Prop :=
  G.predecessors b = [] ∨
    (∃ p, G.predecessors b = [p] ∧ s.AnswersAt G t c found p (G.getNodes p)) ∨
    ∃ x ∈ found, s.PhiOf t c b x

variable (G) in
/-- What a search for the definitions of a def-site at the end of a block does. -/
def SearchRight (search : B → DefSite (RWNode N) → Transformation N B →
    Option (Transformation N B × List (RWNode N))) : Prop :=
  ∀ b ds s s' found, s.Shape G → search b ds s = some (s', found) →
    s.Extends G s' ∧ (∀ x ∈ found, s'.Known x) ∧
      (s'.OwnBytes → ∀ c ∈ ds.getInterval, c ≠ .unknown →
        s'.AnswersAt G ds.target c found b (G.getNodes b))

omit [DecidableEq N] in
theorem getSinglePredecessor_eq_some_iff {b p : B} :
    G.getSinglePredecessor b = some p ↔ G.predecessors b = [p] := by
  rw [ReadWriteGraph.getSinglePredecessor]
  split
  · next q hq =>
      rw [hq]
      simp
  · next hnone =>
      refine iff_of_false nofun fun hp => hnone p hp

theorem AnswersBefore.mono {s t : Transformation N B} (h : s.Grows t) {m : Memory (RWNode N)}
    {c : Offset} {found found' : List (RWNode N)} {b : B} (hfound : found ⊆ found')
    (ha : s.AnswersBefore G m c found b) : t.AnswersBefore G m c found' b := by
  obtain hroot | ⟨p, hp, hanswers⟩ | ⟨x, hx, hphi⟩ := ha
  · exact Or.inl hroot
  · exact Or.inr (Or.inl ⟨p, hp, h.answersAt hanswers hfound⟩)
  · exact Or.inr (Or.inr ⟨x, hfound hx, h.phiOf hphi⟩)

/-- What the definitions at a place have, and what was found in front of the block. -/
theorem PlaceRight.answersAt {s t : Transformation N B} {b : B} {l : List (RWNode N)}
    {D : Definitions (RWNode N)} (h : s.PlaceRight G b l D) (hgrows : s.Grows t)
    {ds : DefSite (RWNode N)} {found : List (RWNode N)} (hget : D.get ds ⊆ found)
    (hown : ∀ t c i, D.definitions.Has t c (.phi i) → s.PhiAt i t c) {c : Offset}
    (hc : c ∈ ds.getInterval) (hbefore : ¬ (D.kills.offsets ds.target).Covers c →
      t.AnswersBefore G ds.target c found b) : t.AnswersAt G ds.target c found b l := by
  have hfound : ∀ d, D.definitions.Has ds.target c d → d ∈ found := fun d hd =>
    hget (Definitions.mem_get_of_has hc hd)
  have hhere : FoundHere (G.Kills ds.target c) (fun d => (G.annotations d).Defines ds.target c)
      found l := fun d hd hsurvives => hfound d (h.has_of _ c d hd hsurvives)
  -- what is killed is overwritten, or a PHI node of the block defines it; the rest was sought in front
  by_cases hcovers : (D.kills.offsets ds.target).Covers c
  · obtain hkill | hroot | ⟨i, hhas, hmem⟩ := h.killed _ c hcovers
    · exact .killed hhere hkill
    · exact .root hhere hroot
    · have hphi : s.PhiOf ds.target c b (.phi i) := ⟨hmem, i, rfl, hown _ c i hhas⟩
      exact .phi hhere (hgrows.phiOf hphi) (hfound _ hhas)
  · obtain hroot | ⟨p, hp, hanswers⟩ | ⟨x, hx, hphi⟩ := hbefore hcovers
    · exact .root hhere hroot
    · exact .before hhere hp hanswers
    · exact .phi hhere hphi hx

variable {search : B → DefSite (RWNode N) → Transformation N B →
  Option (Transformation N B × List (RWNode N))}

/-- The operands of a PHI node answer what was sought in the blocks. -/
theorem SearchRight.findPhiDefinitions (hsearch : SearchRight G search) {phi : RWNode N}
    {blocks : List B} {ds : DefSite (RWNode N)} {s s' : Transformation N B} (h : s.Shape G)
    (hrun : findPhiDefinitions search phi blocks ds s = some s') :
    ∃ t found, s.Extends G t ∧ s' = t.addDefUse phi found ∧ (∀ x ∈ found, t.Known x) ∧
      (t.OwnBytes → ∀ p ∈ blocks, ∀ c ∈ ds.getInterval, c ≠ .unknown →
        t.AnswersAt G ds.target c found p (G.getNodes p)) := by
  rw [Transformation.findPhiDefinitions, Option.map_eq_some_iff] at hrun
  obtain ⟨⟨t, found⟩, hloop, rfl⟩ := hrun
  have hright := loop_right (p := (s, [])) (q := (t, found))
    (Q := fun p t found => ∀ c ∈ ds.getInterval, c ≠ .unknown →
      t.AnswersAt G ds.target c found p (G.getNodes p))
    (fun hgrows hfound hQ c hc hne => hgrows.answersAt (hQ c hc hne) hfound)
    (fun p _ acc acc' hbefore hstep => ?_) h hloop
  · exact ⟨t, found, hright.1, rfl,
      fun x hx => (hright.2.2.1 x hx).resolve_left List.not_mem_nil, hright.2.2.2⟩
  · obtain ⟨⟨t', found'⟩, hfound, rfl⟩ := Option.map_eq_some_iff.1 hstep
    obtain ⟨hextends, hknown, hanswers⟩ := hsearch p ds acc.1 t' found' hbefore.shape hfound
    refine ⟨hextends, fun x hx => List.mem_union_iff.2 (Or.inl hx),
      fun x hx => (List.mem_union_iff.1 hx).imp_right (hknown x), fun hown c hc hne => ?_⟩
    exact (hanswers hown c hc hne).mono (fun x hx => List.mem_union_iff.2 (Or.inr hx)) fun _ _ hx => hx

variable [DecidableEq B] [DecidableEq S]

omit [DecidableEq S] in
/-- In front of a block with predecessors: the PHI node gets its operands. -/
theorem SearchRight.createAndPlacePhi (hsearch : SearchRight G search) {b : B}
    {ds : DefSite (RWNode N)} {s s' : Transformation N B} (h : s.Shape G)
    (hrun : Transformation.findPhiDefinitions search (createAndPlacePhi G b ds s).2 (G.predecessors b)
      ds (createAndPlacePhi G b ds s).1 = some s') :
    s.Extends G s' ∧ s'.Known (createAndPlacePhi G b ds s).2 ∧ ∀ c ∈ ds.getInterval,
      s'.PhiOf ds.target c b (createAndPlacePhi G b ds s).2 := by
  obtain ⟨hprocess, hD, -, -⟩ := extends_getBBlockDefinitions h b
  rw [createAndPlacePhi_eq] at hrun ⊢
  generalize getBBlockDefinitions G b s = processed at hprocess hD hrun ⊢
  obtain ⟨s₁, D⟩ := processed
  dsimp only at hprocess hD hrun ⊢
  have hshape := hprocess.shape.withPhi ds hD (Or.inr rfl)
  have hgrows := hprocess.shape.grows_withPhi ds hD (Or.inr rfl)
  obtain ⟨t, found, hextends, rfl, hfound, hanswers⟩ := hsearch.findPhiDefinitions hshape hrun
  have hnew : ¬ s₁.Known (.phi s₁.phis.length) := fun hknown => lt_irrefl _ (known_phi_iff.1 hknown)
  have hlength : (s₁.phis ++ [ds]).length = s₁.phis.length + 1 := by
    rw [List.length_append, List.length_singleton]
  have hknown : ∀ u : Transformation N B, s₁.phis ++ [ds] <+: u.phis →
      u.Known (.phi s₁.phis.length) := by
    intro u hu
    have := hu.length_le
    exact known_phi_iff.2 (by omega)
  have hat : ∀ m c, t.PhiAt s₁.phis.length m c ↔ m = ds.target ∧ c ∈ ds.getInterval := fun m c =>
    phiAt_new hextends.grows.phis
  -- the searches for its operands leave it without operands, since it was there before them
  have hnone : t.defuse (.phi s₁.phis.length) = none := by
    rw [hextends.grows.defuse _ (hknown _ List.prefix_rfl)]
    exact hprocess.shape.defuse_phi _ le_rfl
  refine ⟨?_, ⟨(hknown t hextends.grows.phis).phi, nofun⟩, ?_⟩
  · refine hprocess.trans ⟨?_, ?_, fun hown i hi => ?_, fun i hi y hy => ?_⟩
    · exact hextends.shape.addDefUse (hknown t hextends.grows.phis) found
    · exact (hgrows.trans hextends.grows).addDefUse hnew found
    · have hown : t.OwnBytes := hown
      obtain rfl | hlater := Nat.eq_or_lt_of_le hi
      · -- the new PHI node is in this block only
        intro b' hb' m c hne hphi p hp
        obtain rfl := eq_of_mem_new hprocess.shape hextends.grows hb'
        obtain ⟨rfl, hc⟩ := (hat m c).1 hphi
        refine (hanswers hown p hp c hc hne).mono (fun d hd => ?_) fun _ _ hphi => hphi
        exact mem_addDefUse.2 (Or.inr hd)
      · refine (hextends.complete hown i ?_).addDefUse _ _
        show (s₁.phis ++ [ds]).length ≤ i
        omega
    · have hy : y ∈ ((t.addDefUse (.phi s₁.phis.length) found).defuse (.phi i)).getD [] := hy
      have hyt : t.Known y := by
        obtain rfl | hlater := Nat.eq_or_lt_of_le hi
        · refine hfound y ((mem_addDefUse.1 hy).resolve_left ?_)
          rw [hnone]
          exact List.not_mem_nil
        · rw [addDefUse_of_ne found fun heq => (Nat.ne_of_lt hlater) (RWNode.phi.inj heq).symm] at hy
          refine hextends.closed i ?_ y hy
          show (s₁.phis ++ [ds]).length ≤ i
          omega
      exact ⟨hyt.phi, hyt.mu⟩
  · intro c hc
    refine ⟨?_, _, rfl, (hat ds.target c).2 ⟨rfl, hc⟩⟩
    apply hextends.grows.nodes b
    show _ ∈ Function.update s₁.nodes b (.phi s₁.phis.length :: s₁.nodes b) b
    rw [Function.update_self]
    exact List.mem_cons_self

/-- Several predecessors, or none. -/
theorem SearchRight.findDefinitionsInMultiplePredecessors (hsearch : SearchRight G search) {b : B}
    {ds : DefSite (RWNode N)} {s s' : Transformation N B} {found : List (RWNode N)} (h : s.Shape G)
    (hrun : findDefinitionsInMultiplePredecessors G search b ds s = some (s', found)) :
    s.Extends G s' ∧ (∀ x ∈ found, s'.Known x) ∧
      ∀ c ∈ ds.getInterval, s'.AnswersBefore G ds.target c found b := by
  rw [Transformation.findDefinitionsInMultiplePredecessors] at hrun
  by_cases hroot : G.predecessors b = []
  · -- at the entry: a PHI node for the input of the procedure, or nothing
    rw [if_pos (List.isEmpty_iff.2 hroot)] at hrun
    split at hrun
    · obtain ⟨rfl, rfl⟩ := Prod.mk.inj (Option.some.inj hrun)
      refine ⟨extends_createPhiIn h hroot ds, fun x hx => ?_, fun c _ => Or.inl hroot⟩
      rw [List.mem_singleton.1 hx]
      exact known_createPhiIn b ds
    · obtain ⟨rfl, rfl⟩ := Prod.mk.inj (Option.some.inj hrun)
      exact ⟨.refl h, nofun, fun c _ => Or.inl hroot⟩
  · rw [if_neg (by simpa using hroot)] at hrun
    obtain ⟨t, hfind, heq⟩ := Option.map_eq_some_iff.1 hrun
    obtain ⟨rfl, rfl⟩ := Prod.mk.inj heq
    obtain ⟨hextends, hknown, hphi⟩ := hsearch.createAndPlacePhi h hfind
    refine ⟨hextends, fun x hx => ?_,
      fun c hc => Or.inr (Or.inr ⟨_, List.mem_singleton_self _, hphi c hc⟩)⟩
    rw [List.mem_singleton.1 hx]
    exact hknown

theorem SearchRight.findDefinitionsInPredecessors (hsearch : SearchRight G search) {b : B}
    {ds : DefSite (RWNode N)} {s s' : Transformation N B} {found : List (RWNode N)} (h : s.Shape G)
    (hrun : findDefinitionsInPredecessors G search b ds s = some (s', found)) :
    s.Extends G s' ∧ (∀ x ∈ found, s'.Known x) ∧
      (s'.OwnBytes → ∀ c ∈ ds.getInterval, c ≠ .unknown →
        s'.AnswersBefore G ds.target c found b) := by
  rw [Transformation.findDefinitionsInPredecessors] at hrun
  cases hp : G.getSinglePredecessor b with
  | some p =>
      rw [hp] at hrun
      obtain ⟨hextends, hknown, hanswers⟩ := hsearch p ds s s' found h hrun
      exact ⟨hextends, hknown, fun hown c hc hne =>
        Or.inr (Or.inl ⟨p, getSinglePredecessor_eq_some_iff.1 hp, hanswers hown c hc hne⟩)⟩
  | none =>
      rw [hp] at hrun
      obtain ⟨hextends, hknown, hanswers⟩ := hsearch.findDefinitionsInMultiplePredecessors h hrun
      exact ⟨hextends, hknown, fun _ c hc _ => hanswers c hc⟩

/-- What is not killed at the place is sought in front of the block. -/
theorem SearchRight.addUncoveredFromPredecessors (hsearch : SearchRight G search) {b : B}
    {D : Definitions (RWNode N)} (htight : D.Tight) {ds : DefSite (RWNode N)}
    {defs : List (RWNode N)} {s s' : Transformation N B} {found : List (RWNode N)} (h : s.Shape G)
    (hrun : addUncoveredFromPredecessors G search b D ds defs s = some (s', found)) :
    s.Extends G s' ∧ defs ⊆ found ∧ (∀ x ∈ found, x ∈ defs ∨ s'.Known x) ∧
      (s'.OwnBytes → ∀ c ∈ ds.getInterval, c ≠ .unknown →
        ¬ (D.kills.offsets ds.target).Covers c → s'.AnswersBefore G ds.target c found b) := by
  rw [Transformation.addUncoveredFromPredecessors] at hrun
  have hright := loop_right (p := (s, defs)) (q := (s', found))
    (Q := fun J t found => ∀ c ∈ (DefSite.ofInterval ds.target J).getInterval, c ≠ .unknown →
      t.AnswersBefore G ds.target c found b)
    (fun hgrows hfound hQ c hc hne => (hQ c hc hne).mono hgrows hfound)
    (fun J _ acc acc' hmid hstep => ?_) h hrun
  · refine ⟨hright.1, hright.2.1, hright.2.2.1, fun hown c hc hne hcovers => ?_⟩
    obtain ⟨J, hJ, hcJ⟩ := D.exists_uncovered htight hc hne hcovers
    exact hright.2.2.2 hown J hJ c hcJ hne
  · obtain ⟨⟨t, found'⟩, hfound, rfl⟩ := Option.map_eq_some_iff.1 hstep
    obtain ⟨hextends, hknown, hanswers⟩ := hsearch.findDefinitionsInPredecessors hmid.shape hfound
    refine ⟨hextends, fun x hx => List.mem_append_left _ hx,
      fun x hx => (List.mem_append.1 hx).imp_right (hknown x), fun hown c hc hne => ?_⟩
    exact (hanswers hown c hc hne).mono (.refl t) fun x hx => List.mem_append_right _ hx

/-- **The search is complete**, whatever its bound. -/
theorem searchRight_findDefinitionsAt : ∀ fuel : Nat,
    SearchRight G (findDefinitionsAt (N := N) (B := B) G fuel) := by
  intro fuel
  -- nested searches have less depth left, and they start in states of the same shape
  induction fuel with
  | zero =>
      intro b ds s s' found _ hrun
      cases hrun
  | succ fuel ih =>
      intro b ds s s' found h hrun
      obtain ⟨hprocess, hD, -, -⟩ := extends_getBBlockDefinitions h b
      have hrun : addUncoveredFromPredecessors G (findDefinitionsAt G fuel) b
          (getBBlockDefinitions G b s).2 ds ((getBBlockDefinitions G b s).2.get ds)
            (getBBlockDefinitions G b s).1 = some (s', found) := hrun
      have hplace := hprocess.shape.blocks b _ hD
      obtain ⟨hextends, hfound, hknown, hbefore⟩ :=
        ih.addUncoveredFromPredecessors hplace.tight hprocess.shape hrun
      refine ⟨hprocess.trans hextends, fun x hx => ?_, fun hown c hc hne => ?_⟩
      · obtain hx | hx := hknown x hx
        · exact hextends.grows.knows (hplace.known_of_mem_get hx)
        · exact hx
      -- PHI nodes that are right at the end were right when the definitions were read
      have hbytes := hextends.grows.ownBytes hprocess.shape hown
      exact hplace.answersAt hextends.grows hfound (hbytes b _ hD) hc (hbefore hown c hc hne)

end Search

end Transformation

end Cape.MemorySSA
