import Cape.PointerAnalysis.FlowSensitive
import Cape.PointerAnalysis.Soundness

/-!
# The runs of the flow-sensitive analysis

When the rounds end, the state is closed under every node (`FS.closed_run`): its map holds what the
maps of its predecessors hold, but for what a strong update overwrites, and the conclusions of the
rules of the node hold in it. A node changes its own set and its own map only, and a node watches
those of the nodes before it, so that what it watches changes only with a report that lets it be
processed again (`Watches.closed_rounds`).
-/

set_option autoImplicit false

namespace Cape.PointerAnalysis

open Cape.Library

universe u

variable {N : Type u} [DecidableEq N]

namespace FS

/-! ## What the soundness rests on -/

/-- The graph of one procedure: there are no calls, its nodes belong to it, the global nodes do not,
and its first node has a map of its own. -/
structure Intraprocedural (G : PointerGraph N) : Prop where
  callees : ∀ n, G.callees n = []
  returnSites : ∀ n, G.returnSites n = []
  parent : ∀ n, G.Reaches G.root n → ∃ i, G.parent n = some i ∧ G.subgraphs[i]? = some G.root
  globals : ∀ g ∈ G.globals, G.predecessors g = [] ∧ g ≠ G.root
  root : needsMerge G G.root = true

/-- The addresses that a node writes to or copies from. -/
def addresses (G : PointerGraph N) (n : N) : List (PSNode N) :=
  match G.kind n with
  | .store _ address => [address]
  | .memcpy source destination _ => [source, destination]
  | _ => []

/-- No address of a store or a `memcpy` has the unknown pointer. -/
def AddressesKnown (G : PointerGraph N) (s : State N (Key N)) : Prop :=
  ∀ n, ∀ x ∈ addresses G n, Pointer.unknownPointer ∉ s.pts x

/-- The set has no pointer to an allocation on a loop. -/
def OffLoops [Fintype N] (G : PointerGraph N) (S : PointsToSet N) : Prop :=
  ∀ a o, ⟨.node a, o⟩ ∈ S → G.kind a = .alloc → isOnLoop G G.parent (.node a) = false

section Facts

variable {G : PointerGraph N} {order : KeyOrder N} {opts : PointerAnalysisOptions}

/-- The state admits the fact, memory being the map `mm`. -/
def AdmitsIn (s : State N (Key N)) (mm : N) : Fact N (PSNode N) → Prop
  | (.node x, p) => (s.pts x).Admits p
  | (.cell k off, p) => s.Admits (.cell (mm, k) off, p)

omit [DecidableEq N] in
theorem AdmitsIn.mono {s t : State N (Key N)} {mm : N} {f : Fact N (PSNode N)} (h : s.Le t)
    (hf : AdmitsIn s mm f) : AdmitsIn t mm f := by
  obtain ⟨x | ⟨k, off⟩, p⟩ := f
  · exact State.pts_admits_mono h hf
  · exact State.Admits.mono (f := (.cell (mm, k) off, p)) h hf

omit [DecidableEq N] in
theorem AdmitsIn.of_agree {s t : State N (Key N)} {mm : N} {f : Fact N (PSNode N)}
    (hpts : ∀ x, f.1 = .node x → t.pts x = s.pts x)
    (hcell : ∀ x off, t.cell (mm, x) off = s.cell (mm, x) off) (hf : AdmitsIn s mm f) :
    AdmitsIn t mm f := by
  obtain ⟨x | ⟨k, off⟩, p⟩ := f
  · show (t.pts x).Admits p
    rw [hpts x rfl]
    exact hf
  · show (t.cell (mm, k) off).Admits p ∨ (t.cell (mm, k) .unknown).Admits p
    rw [hcell, hcell]
    exact hf

omit [DecidableEq N] in
theorem AdmitsIn.of_read {s t : State N (Key N)} {mm : N} {f : Fact N (PSNode N)}
    (h : t.read = s.read) (hf : AdmitsIn s mm f) : AdmitsIn t mm f :=
  hf.of_agree (fun x _ => congrFun h (.node x)) fun x off => congrFun h (.cell (mm, x) off)

/-! ## One turn -/

/-- The object of an allocation is found where it is, and by a node that changes memory. -/
theorem mem_getMemoryObjects_of_alloc {data : N → Option N} {n mm a : N} {q : Pointer N}
    {s : State N (Key N)} (hmm : data n = some mm) (hq : q.target = .node a)
    (h : (s.objects (mm, .node a)).isSome = true ∨ canChangeMM G n = true) :
    (mm, .node a) ∈ ((memory G data).getMemoryObjects n q s).2 := by
  show _ ∈ (getMemoryObjects G data n q s).2
  have hfound : ((s.objects (mm, .node a)).isSome || canChangeMM G n) = true :=
    Bool.or_eq_true_iff.2 h
  simp [getMemoryObjects, hmm, hq, hfound]

/-- **A node with a map makes the conclusions of its rules hold.** -/
theorem admits_process {n mm : N} {qs : List (Fact N (PSNode N))} {f : Fact N (PSNode N)}
    {s : MapState N} (hmm : s.data n = some mm) (hinitial : (State.initial G).Le s.state)
    (hknown : ∀ x ∈ addresses G n, (∃ p, (.node x, p) ∈ qs) → Pointer.unknownPointer ∉ s.state.pts x)
    (hrule : FI.Transfer G n qs f) (hqs : ∀ q ∈ qs, AdmitsIn s.state mm q) :
    AdmitsIn (process G opts n s).1.state mm f := by
  have hle : s.state.Le (process G opts n s).1.state := le_process n s
  cases hrule with
  | alloc hkind =>
      apply State.pts_admits_mono (hinitial.trans hle)
      left
      left
      simp [State.pts, State.initial, hkind]
  | constant hkind hoff =>
      apply State.pts_admits_mono (hinitial.trans hle)
      left
      obtain rfl | rfl := hoff
      · right
        simp [State.pts, State.initial, hkind, Pointer.widen]
      · left
        simp [State.pts, State.initial, hkind]
  | copy hkind =>
      exact (memory G s.data).admits_copy opts hkind (hqs _ List.mem_cons_self)
  | gep hkind hoff =>
      exact (memory G s.data).admits_gep opts hkind (hqs _ List.mem_cons_self) hoff
  | @load a _ o p hkind ha =>
      have hcell := hqs _ (List.mem_cons_of_mem _ List.mem_cons_self)
      -- something is at the place, so the object is in the map
      have hsome : (s.state.objects (mm, .node a)).isSome = true := by
        obtain h | h := (hcell : s.state.Admits (.cell (mm, .node a) o, p))
        · exact (exists_of_admits h).2
        · exact (exists_of_admits h).2
      exact (memory G s.data).admits_load opts hkind ha (hqs _ List.mem_cons_self) hcell
        fun q t ht hq => mem_getMemoryObjects_of_alloc hmm hq (Or.inl (ht.objects _ hsome))
  | store hkind ha =>
      have hunknown := hknown _ (by simp [addresses, hkind]) ⟨_, List.mem_cons_self⟩
      have haddress := (hqs _ List.mem_cons_self : PointsToSet.Admits _ _).resolve_right hunknown
      exact (memory G s.data).admits_store opts hkind ha haddress
        (hqs _ (List.mem_cons_of_mem _ List.mem_cons_self))
        fun q t _ hq => mem_getMemoryObjects_of_alloc hmm hq (Or.inr (by simp [canChangeMM, hkind]))
  | memcpy hkind ha hb hwrap hlen =>
      have hchange : canChangeMM G n = true := by simp [canChangeMM, hkind]
      have hsrc := hknown _ (by simp [addresses, hkind]) ⟨_, List.mem_cons_self⟩
      have hdest := hknown _ (by simp [addresses, hkind])
        ⟨_, List.mem_cons_of_mem _ List.mem_cons_self⟩
      exact (memory G s.data).admits_memcpy opts hkind ha hb
        ((hqs _ List.mem_cons_self : PointsToSet.Admits _ _).resolve_right hsrc)
        ((hqs _ (List.mem_cons_of_mem _ List.mem_cons_self) :
          PointsToSet.Admits _ _).resolve_right hdest)
        (hqs _ (List.mem_cons_of_mem _ (List.mem_cons_of_mem _ List.mem_cons_self))) hwrap hlen
        (fun q t _ hq => mem_getMemoryObjects_of_alloc hmm hq (Or.inr hchange))
        fun q t _ hq => mem_getMemoryObjects_of_alloc hmm hq (Or.inr hchange)

/-! ## The maps of the nodes -/

/-- Who has which map. -/
structure Shared (G : PointerGraph N) (s : MapState N) : Prop where
  owner : ∀ n mm, s.data n = some mm → (needsMerge G n = true ∧ mm = n) ∨
    (needsMerge G n = false ∧ ∃ p, G.predecessors n = [p] ∧ s.data p = some mm)
  reaches : ∀ n mm, s.data n = some mm → G.Reaches mm n
  parent : ∀ a, G.kind a = .alloc → s.state.parent a = G.parent a
  initial : (State.initial G).Le s.state

omit [DecidableEq N] in
theorem Shared.ownMaps {s : MapState N} (h : Shared G s) : OwnMaps G s := by
  intro n mm hmm hmerge
  obtain ⟨-, heq⟩ | ⟨hshare, -⟩ := h.owner n mm hmm
  · exact heq
  · rw [hmerge] at hshare
    cases hshare

omit [DecidableEq N] in
theorem shared_start : Shared G (start G) :=
  ⟨nofun, nofun, fun _ _ => rfl, .refl _⟩

omit [DecidableEq N] in
theorem Intraprocedural.edge_iff (hG : Intraprocedural G) {a b : N} :
    G.Edge a b ↔ a ∈ G.predecessors b := by
  rw [G.mem_predecessors]
  show b ∈ G.edges a ↔ b ∈ G.successors a
  unfold PointerGraph.edges
  split
  · simp [hG.callees]
  · simp [hG.callees]
  · simp [hG.returnSites]
  · rfl

theorem parent_setZeroInitialized (x : PSNode N) (s : State N (Key N)) :
    (State.setZeroInitialized x s).1.parent = s.parent := by
  cases x <;> rfl

/-- A node changes the parent of no other node. -/
theorem parent_process_of_ne {a n : N} (hn : a ≠ n) (s : MapState N) :
    (process G opts n s).1.state.parent a = s.state.parent a := by
  have hparent : ∀ (k : Key N) off (f : Step (PointsToSet N)) (s : State N (Key N)),
      (State.modifyCell k off f s).1.parent = s.parent := by
    intro k off f s
    rw [State.modifyCell]
    split <;> rfl
  have hwrites : Elementary G opts (memory G s.data).getMemoryObjects n (fun _ => True)
      (fun _ => True) (fun _ _ => True) (fun s t _ => t.parent a = s.parent a) :=
    .of_writes ⟨fun _ => rfl, fun h h' => h'.trans h⟩
      (fun p s' => congrFun ((memory G s.data).finds n p s').parent a)
      (fun _ _ => rfl) (fun _ _ => rfl)
      (fun k off s => congrFun (hparent k off _ s) a)
      (fun k off src s => by
        show (State.copyToCell k off src s).1.parent a = s.parent a
        rw [State.copyToCell]
        split
        · rfl
        · exact congrFun (hparent k off _ s) a)
      (fun p s => Function.update_of_ne hn _ _)
  exact (hwrites.processNode (fun _ _ _ _ x s _ =>
    ⟨trivial, congrFun (parent_setZeroInitialized x s) a⟩) s.state trivial).2

/-- Processing an allocation does nothing, and another node leaves the parent as it is. -/
theorem parent_process {a : N} (ha : G.kind a = .alloc) (n : N) (s : MapState N) :
    (process G opts n s).1.state.parent a = s.state.parent a := by
  by_cases hn : a = n
  · subst hn
    show (processNode G opts (getMemoryObjects G s.data) a s.state).1.parent a = _
    rw [processNode, ha]
    rfl
  · exact parent_process_of_ne hn s

section Run

variable [Fintype N]

theorem parent_step {a : N} (ha : G.kind a = .alloc) (n : N) (s : MapState N) :
    (step G order opts n s).1.state.parent a = s.state.parent a := by
  obtain ⟨b, -, hbefore⟩ := meets_beforeProcessed (G := G) order (pts_mapWrites n) s
  have hafter := meets_afterProcessed (G := G) order (n := n)
    (process G opts n (beforeProcessed G order n s).1).1
    (R := fun s t _ => (∀ x, t.pts x = s.pts x) ∧ t.parent = s.parent)
    (fun _ => ⟨fun _ => rfl, rfl⟩) (fun mm _ _ => pts_mapWrites mm)
  exact (congrFun hafter.2 a).trans ((parent_process ha n _).trans (congrFun hbefore a))

/-- **Every node keeps who has which map.** -/
theorem Shared.step (hG : Intraprocedural G) {s : MapState N} (h : Shared G s) (n : N) :
    Shared G (step G order opts n s).1 := by
  -- a new map is that of the node, or that of its predecessor
  have hnew : ∀ m mm, (FS.step G order opts n s).1.data m = some mm → s.data m = some mm ∨
      (m = n ∧ ((needsMerge G n = true ∧ mm = n) ∨
        (needsMerge G n = false ∧ ∃ p, G.predecessors n = [p] ∧ s.data p = some mm))) := by
    intro m mm hmm
    by_cases hm : m = n
    · subst hm
      rw [data_step] at hmm
      obtain ⟨-, heq⟩ | ⟨-, -, ⟨hmerge, hdata, -⟩ | ⟨hshare, p, hp, heq⟩⟩ :=
        beforeProcessed_cases (G := G) order m s
      · rw [heq] at hmm
        exact Or.inl hmm
      · rw [hdata, Function.update_self, Option.some.injEq] at hmm
        exact Or.inr ⟨rfl, Or.inl ⟨hmerge, hmm.symm⟩⟩
      · rw [heq] at hmm
        have hmm : Function.update s.data m (s.data p) m = some mm := hmm
        rw [Function.update_self] at hmm
        exact Or.inr ⟨rfl, Or.inr ⟨hshare, p, hp, hmm⟩⟩
    · rw [data_step_of_ne hm] at hmm
      exact Or.inl hmm
  constructor
  case owner =>
    intro m mm hmm
    have hkeep : ∀ p, s.data p = some mm → (FS.step G order opts n s).1.data p = some mm :=
      fun p hp => data_step_of_some n hp
    obtain hold | ⟨rfl, hown | ⟨hshare, p, hp, hdata⟩⟩ := hnew m mm hmm
    · exact (h.owner m mm hold).imp_right fun ⟨hshare, p, hp, hdata⟩ =>
        ⟨hshare, p, hp, hkeep p hdata⟩
    · exact Or.inl hown
    · exact Or.inr ⟨hshare, p, hp, hkeep p hdata⟩
  case reaches =>
    intro m mm hmm
    obtain hold | ⟨rfl, ⟨-, rfl⟩ | ⟨-, p, hp, hdata⟩⟩ := hnew m mm hmm
    · exact h.reaches m mm hold
    · exact .refl
    · have hmem : p ∈ G.predecessors m := by rw [hp]; exact List.mem_singleton_self p
      exact (h.reaches p mm hdata).tail (hG.edge_iff.2 hmem)
  case parent => exact fun a ha => (parent_step ha n s).trans (h.parent a ha)
  case initial => exact h.initial.trans (le_step n s)

/-- What came after the global nodes: nothing was lost, and the map of the root took over those of
the global nodes. -/
structure Extends (G : PointerGraph N) (s₀ s : MapState N) : Prop where
  le : s₀.state.Le s.state
  data : ∀ n mm, s₀.data n = some mm → s.data n = some mm
  rooted : ∀ mm, s.data G.root = some mm → ∀ g ∈ G.globals, ∀ gm, s₀.data g = some gm →
    ∀ x off p, (s₀.state.cell (gm, x) off).Admits p → (s.state.cell (mm, x) off).Admits p

theorem Extends.step (hG : Intraprocedural G) {s₀ s : MapState N} (h : Extends G s₀ s) (n : N) :
    Extends G s₀ (step G order opts n s).1 where
  le := h.le.trans (le_step n s)
  data := fun m mm hmm => data_step_of_some n (h.data m mm hmm)
  rooted := by
    intro mm hmm g hg gm hgm x off p hp
    have hgrows : ∀ t : MapState N, t.state.Le (FS.step G order opts n s).1.state →
        (t.state.cell (mm, x) off).Admits p →
        ((FS.step G order opts n s).1.state.cell (mm, x) off).Admits p :=
      fun t ht => PointsToSet.Admits.mono (ht.read (.cell (mm, x) off))
    cases hroot : s.data G.root with
    | some mm' =>
        obtain rfl : mm' = mm := Option.some.inj ((data_step_of_some n hroot).symm.trans hmm)
        exact hgrows s (le_step n s) (h.rooted mm' hroot g hg gm hgm x off p hp)
    | none =>
        -- the root gets its map now
        by_cases hn : G.root = n
        · subst hn
          obtain ⟨hsome, -⟩ | ⟨-, -, ⟨-, hdata, hstate⟩ | ⟨hshare, -⟩⟩ :=
            beforeProcessed_cases (G := G) order G.root s
          · rw [hroot] at hsome
            cases hsome
          · rw [if_pos rfl] at hstate
            rw [data_step, hdata, Function.update_self, Option.some.injEq] at hmm
            subst hmm
            have hrest : (beforeProcessed G order G.root s).1.state.Le
                (FS.step G order opts G.root s).1.state :=
              (le_process G.root _).trans (le_afterProcessed G.root _)
            refine hgrows _ hrest ?_
            rw [hstate]
            have hdata' : Function.update s.data G.root (some G.root) g = some gm := by
              rw [Function.update_of_ne (hG.globals g hg).2]
              exact h.data g gm hgm
            refine each_establishes
              (fun g t => ((rises_mapWrites G.root).mergeMapOf order _ none g t).le)
              (P := fun t => (t.cell (G.root, x) off).Admits p)
              (fun ht => PointsToSet.Admits.mono (ht.read (.cell (G.root, x) off))) hg fun t ht => ?_
            simp only [mergeMapOf, hdata']
            exact admits_mergeMaps order
              (PointsToSet.Admits.mono ((h.le.trans ht).read (.cell (gm, x) off)) hp) (by simp)
          · rw [hG.root] at hshare
            cases hshare
        · rw [data_step_of_ne hn, hroot] at hmm
          cases hmm

/-! ## What a node watches -/

/-- The node is before `m`, or the run does not come to it. -/
def Seen (G : PointerGraph N) (m o : N) : Prop := G.Reaches o m ∨ ¬ G.Reaches G.root o

def SeenOperand (G : PointerGraph N) (m : N) (x : PSNode N) : Prop := ∀ o, x = .node o → Seen G m o

/-- The nodes that `m` sees have the same sets and the same maps. -/
structure Agree (G : PointerGraph N) (m : N) (s t : MapState N) : Prop where
  pts : ∀ o, Seen G m o → t.state.pts (.node o) = s.state.pts (.node o)
  data : ∀ o, Seen G m o → t.data o = s.data o
  cell : ∀ o, Seen G m o → ∀ x off, t.state.cell (o, x) off = s.state.cell (o, x) off

/-- The node is a strong update of the place: it stores to an address that may point to it, and to no
allocation on a loop. -/
def Overwrites (G : PointerGraph N) (n : N) (s : State N (Key N)) (x : PSNode N) (off : Offset) :
    Prop :=
  ∃ value address, G.kind n = .store value address ∧ OffLoops G (s.pts address) ∧
    ⟨x, off⟩ ∈ s.pts address

/-- The state admits the fact in the map `mm`, and `m` sees whose it is. -/
def Knows (G : PointerGraph N) (m mm : N) (s : State N (Key N)) (f : Fact N (PSNode N)) : Prop :=
  AdmitsIn s mm f ∧ ∀ x, f.1 = .node x → SeenOperand G m x

/-- **The state is closed under the node**: it has a map, which holds what the maps of its
predecessors hold and it does not overwrite, and what follows by its rules. -/
structure Closed (G : PointerGraph N) (m : N) (s : MapState N) : Prop where
  data : ∃ mm, s.data m = some mm
  merged : needsMerge G m = true →
    (∀ value address, G.kind m = .store value address → SeenOperand G m address) →
    ∀ p ∈ G.predecessors m, ∀ pm, s.data p = some pm → ∀ x off q,
      (s.state.cell (pm, x) off).Admits q → ¬ Overwrites G m s.state x off →
        (s.state.cell (m, x) off).Admits q
  transfer : ∀ mm, s.data m = some mm → ∀ qs f, FI.Transfer G m qs f →
    (∀ q ∈ qs, Knows G m mm s.state q) →
    (∀ x ∈ addresses G m, SeenOperand G m x → Pointer.unknownPointer ∉ s.state.pts x) →
      AdmitsIn s.state mm f

/-- What is in a map is not merged only where a store overwrites it. -/
theorem overwrites_of_overwritten {n : N} {s : State N (Key N)}
    (hparent : ∀ a, G.kind a = .alloc → s.parent a = G.parent a) {x : PSNode N} {off : Offset}
    (h : ((overwritten G n s).any fun S => S.has ⟨x, off⟩) = true) : Overwrites G n s x off := by
  unfold overwritten at h
  split at h
  · next value address hkind =>
      split at h
      · cases h
      · next hloop =>
          have hmem : ⟨x, off⟩ ∈ s.pts address := of_decide_eq_true h
          refine ⟨value, address, hkind, fun a o ha halloc => ?_, hmem⟩
          -- else it would point to an allocation on a loop
          cases hon : isOnLoop G G.parent (.node a) with
          | false => rfl
          | true =>
              refine absurd ?_ hloop
              rw [pointsToAllocationInLoop, List.any_eq_true]
              refine ⟨⟨.node a, o⟩, ha, ?_⟩
              have hon' : isOnLoop G s.parent (.node a) = true := by
                rw [isOnLoop, hparent a halloc]
                exact hon
              simp [Pointer.isValid, Pointer.isNull, Pointer.isUnknown, Pointer.isInvalidated, hon']
  · cases h

/-- **A node that reports nothing has settled.** -/
theorem closed_of_report {n : N} {s : MapState N} (hs : Shared G s)
    (h : (step G order opts n s).2 = false) : Closed G n s := by
  obtain ⟨⟨mm, hmm⟩, hprocess, hafter, heq⟩ := step_of_report h
  obtain ⟨hread, hread', -⟩ := read_step_of_report h
  refine ⟨⟨mm, hmm⟩, ?_, ?_⟩
  · intro hmerge _ p hp pm hpm x off q hq hnot
    obtain rfl := hs.ownMaps n mm hmm hmerge
    have hcell : (step G order opts mm s).1.state.cell (mm, x) off = s.state.cell (mm, x) off :=
      congrFun hread (.cell (mm, x) off)
    rw [← hcell, heq]
    have hdata : (process G opts mm s).1.data = s.data := rfl
    unfold afterProcessed
    rw [hdata, hmm]
    simp only []
    rw [if_pos hmerge]
    refine each_establishes
      (fun p t => ((rises_mapWrites mm).mergeMapOf order s.data _ p t).le)
      (P := fun t => (t.cell (mm, x) off).Admits q)
      (fun ht => PointsToSet.Admits.mono (ht.read (.cell (mm, x) off))) hp fun t ht => ?_
    simp only [mergeMapOf, hpm]
    have hprev : ((process G opts mm s).1.state.cell (pm, x) off).Admits q := by
      have hcell' : (process G opts mm s).1.state.cell (pm, x) off = s.state.cell (pm, x) off :=
        congrFun hread' (.cell (pm, x) off)
      rw [hcell']
      exact hq
    apply admits_mergeMaps order (PointsToSet.Admits.mono (ht.read (.cell (pm, x) off)) hprev)
    intro hover
    apply hnot
    have hover' : Overwrites G mm (process G opts mm s).1.state x off :=
      overwrites_of_overwritten (fun a ha => (parent_process ha mm s).trans (hs.parent a ha)) hover
    obtain ⟨value, address, hkind, hoff, hmem⟩ := hover'
    have hpts : (process G opts mm s).1.state.pts address = s.state.pts address :=
      congrFun hread' (.node address)
    rw [hpts] at hoff hmem
    exact ⟨value, address, hkind, hoff, hmem⟩
  · intro mm' hmm' qs f hrule hqs hknown
    apply AdmitsIn.of_read hread'.symm
    apply admits_process hmm' hs.initial _ hrule fun q hq => (hqs q hq).1
    rintro x hx ⟨p, hp⟩
    exact hknown x hx ((hqs _ hp).2 x rfl)

/-! ## The run -/

omit [Fintype N] [DecidableEq N] in
theorem Agree.symm {m : N} {s t : MapState N} (h : Agree G m s t) : Agree G m t s :=
  ⟨fun o ho => (h.pts o ho).symm, fun o ho => (h.data o ho).symm,
    fun o ho x off => (h.cell o ho x off).symm⟩

omit [Fintype N] [DecidableEq N] in
theorem Agree.pts_operand {m : N} {s t : MapState N} (h : Agree G m s t) {x : PSNode N}
    (hx : SeenOperand G m x) : t.state.pts x = s.state.pts x := by
  cases x with
  | node o => exact h.pts o (hx o rfl)
  | nullptr => rfl
  | unknownMemory => rfl
  | invalidated => rfl

omit [Fintype N] [DecidableEq N] in
theorem Agree.knows {m mm : N} {s t : MapState N} (h : Agree G m s t) (hmm : G.Reaches mm m)
    {f : Fact N (PSNode N)} (hf : Knows G m mm s.state f) : Knows G m mm t.state f :=
  ⟨hf.1.of_agree (fun x hx => h.pts_operand (hf.2 x hx)) (h.cell mm (Or.inl hmm)), hf.2⟩

omit [Fintype N] [DecidableEq N] in
theorem seen_self (m : N) : Seen G m m := Or.inl .refl

/-- Whether a state is closed under a node depends on what the node watches. -/
theorem Closed.congr (hG : Intraprocedural G) {m : N} {s t : MapState N} (hs : Shared G s)
    (h : Agree G m s t) (hclosed : Closed G m s) : Closed G m t := by
  have hdata : t.data m = s.data m := h.data m (seen_self m)
  refine ⟨hdata ▸ hclosed.data, ?_, ?_⟩
  · intro hmerge haddress p hp pm hpm x off q hq hnot
    have hedge : G.Reaches p m := .single (hG.edge_iff.2 hp)
    have hpm' : s.data p = some pm := (h.data p (Or.inl hedge)).symm.trans hpm
    have hreach : G.Reaches pm m := (hs.reaches p pm hpm').trans hedge
    rw [h.cell pm (Or.inl hreach)] at hq
    rw [h.cell m (seen_self m)]
    apply hclosed.merged hmerge haddress p hp pm hpm' x off q hq
    rintro ⟨value, address, hkind, hoff, hmem⟩
    have hpts := h.pts_operand (haddress value address hkind)
    exact hnot ⟨value, address, hkind, by rwa [hpts], by rwa [hpts]⟩
  · intro mm hmm qs f hrule hqs hknown
    rw [hdata] at hmm
    have hreach : G.Reaches mm m := hs.reaches m mm hmm
    have hfact : AdmitsIn s.state mm f := by
      apply hclosed.transfer mm hmm qs f hrule fun q hq => h.symm.knows hreach (hqs q hq)
      intro x hx hseen
      rw [← h.pts_operand hseen]
      exact hknown x hx hseen
    -- the conclusion is about the node itself or about its map
    refine hfact.of_agree (fun x hx => ?_) (h.cell mm (Or.inl hreach))
    obtain ⟨y, p⟩ := f
    obtain rfl : y = .node x := hx
    rw [hrule.eq_node]
    exact h.pts m (seen_self m)

/-- **The nodes watch what is before them.** -/
theorem watches (hG : Intraprocedural G) : Watches (step G order opts) (G.Reaches G.root) G.Reaches
    (Agree G) (Shared G) (Closed G) where
  keepsInv := fun n s hs => hs.step hG n
  refl := fun m s => ⟨fun _ _ => rfl, fun _ _ => rfl, fun _ _ _ _ => rfl⟩
  trans := fun m s t u hst htu => ⟨fun o ho => (htu.pts o ho).trans (hst.pts o ho),
    fun o ho => (htu.data o ho).trans (hst.data o ho),
    fun o ho x off => (htu.cell o ho x off).trans (hst.cell o ho x off)⟩
  apart := by
    intro n m s hs hlive hbefore
    have hne : ∀ o, Seen G m o → o ≠ n := by
      rintro o (ho | ho) rfl
      · exact hbefore ho
      · exact ho hlive
    exact ⟨fun o ho => pts_step_of_ne (hne o ho) s, fun o ho => data_step_of_ne (hne o ho) s,
      fun o ho x off => cell_step_of_ne (hne o ho) hs.ownMaps x off⟩
  silent := by
    intro n m s hreport
    obtain ⟨hread, -, hdata⟩ := read_step_of_report hreport
    exact ⟨fun o _ => congrFun hread (.node (.node o)), fun o _ => congrFun hdata o,
      fun o _ x off => congrFun hread (.cell (o, x) off)⟩
  settles := fun m s hs hreport => closed_of_report hs hreport
  congr := fun m s t hs hagree hclosed => hclosed.congr hG hs hagree

theorem shared_afterGlobals (hG : Intraprocedural G) : Shared G (afterGlobals G order opts) :=
  pass_invariant (fun n _ _ hs => hs.step hG n) shared_start

/-- The root has no map before the run comes to it. -/
theorem data_afterGlobals (hG : Intraprocedural G) :
    (afterGlobals G order opts).data G.root = none := by
  refine pass_invariant (I := fun s : MapState N => s.data G.root = none) ?_ rfl
  intro g hg s hs
  rw [data_step_of_ne (hG.globals g hg).2.symm]
  exact hs

/-- **When the run ends, the state is closed under every node** that the root reaches. -/
theorem closed_run (hG : Intraprocedural G) {fuel : Nat} {t : MapState N}
    (h : run G order opts fuel = some t) :
    (∀ m, G.Reaches G.root m → Closed G m t) ∧ Shared G t ∧
      Extends G (afterGlobals G order opts) t := by
  refine ⟨?_, rounds_invariant (fun n s hs => hs.step hG n) (shared_afterGlobals hG) h, ?_⟩
  · refine (watches hG).closed_rounds (fun _ => .refl) ?_ ?_ (shared_afterGlobals hG) ?_ ?_ h
    · exact fun changed o m ho hreach => FI.mem_queueChanged.2 ⟨o, ho, hreach⟩
    · intro changed hchanged m hm
      obtain ⟨o, ho, hreach⟩ := FI.mem_queueChanged.1 hm
      exact (hchanged o ho).trans hreach
    · intro o ho
      obtain ⟨r, hr, hreach⟩ := G.mem_getNodes.1 ho
      exact List.mem_singleton.1 hr ▸ hreach
    · intro m hm hnot
      exact absurd (G.mem_getNodes.2 ⟨G.root, List.mem_singleton_self _, hm⟩) hnot
  · refine rounds_invariant (fun n s hs => hs.step hG n) ⟨State.Le.refl _, fun _ _ => id, ?_⟩ h
    intro mm hmm
    rw [data_afterGlobals hG] at hmm
    cases hmm

end Run

end Facts

end FS

end Cape.PointerAnalysis
