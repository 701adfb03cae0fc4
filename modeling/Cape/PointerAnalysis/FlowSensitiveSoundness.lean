import Cape.PointerAnalysis.FlowSensitiveRuns

/-!
# Soundness of the flow-sensitive analysis

When the run ends, the memory map of a node admits the memory of every execution that comes to the
node, and the sets of the nodes admit their values (`FS.covered_of_executes`), provided that a strong
update overwrites one place that is there once: a store whose address points to no allocation on a loop
drops the old contents of all places that its address points to, also when they are several
(`FS.strong_update_loses`).

The places of an allocation that is on no loop are there once because an execution does not come to
the allocation twice (`FS.Counted`).
-/

set_option autoImplicit false

namespace Cape.PointerAnalysis

open Cape.Library

universe u

variable {N : Type u} [DecidableEq N]

/-! ## Loops -/

namespace PointerGraph

variable [Fintype N] (G : PointerGraph N)

theorem mem_reachable {n m : N} (h : Relation.ReflTransGen (fun a b => b ∈ G.successors a) n m) :
    m ∈ G.reachable n := by
  have hcard : 0 < Fintype.card N := Fintype.card_pos_iff.2 ⟨n⟩
  have hsize : Worklist.size (⟨{n}, [n]⟩ : Worklist N) ≤ Fintype.card N := by
    show Fintype.card N - Finset.card {n} + 1 ≤ _
    rw [Finset.card_singleton]
    omega
  rw [reachable, Worklist.mem_seen_run .stack G.successors (by simp) hsize]
  obtain hm | ⟨p, hp, hfresh⟩ := Worklist.fresh_of_reaches G.successors (Finset.mem_singleton_self n) h
  · exact Or.inl hm
  · exact Or.inr ⟨p, by simpa using hp, hfresh⟩

/-- A node that a cycle goes through is on a loop, when it is not its own successor. -/
theorem inLoop_of_cycle {r n m : N}
    (hr : Relation.ReflTransGen (fun a b => b ∈ G.successors a) r n) (hm : m ∈ G.successors n)
    (hne : m ≠ n) (hback : Relation.ReflTransGen (fun a b => b ∈ G.successors a) m n) :
    G.inLoop r n = true := by
  have hn := G.mem_reachable hr
  have hm' := G.mem_reachable (Relation.ReflTransGen.single hm)
  have hback' := G.mem_reachable hback
  rw [inLoop, Bool.and_eq_true, Bool.or_eq_true]
  exact ⟨decide_eq_true hn, Or.inl (decide_eq_true ⟨m, hm', hne, hback'⟩)⟩

end PointerGraph

/-! ## Instances -/

/-- The instances in a configuration are those that were allocated. -/
structure Configuration.Numbered (c : Configuration N) : Prop where
  value : ∀ x l, c.value x = some l → l.inst.number < c.allocated l.inst.site
  memory : ∀ k l, c.memory k = some l →
    k.inst.number < c.allocated k.inst.site ∧ l.inst.number < c.allocated l.inst.site

section Instances

variable {G : PointerGraph N} {n : N} {c d : Configuration N}

/-- Only an allocation allocates. -/
theorem allocated_of_exec (h : Exec G n c d) : d.allocated = c.allocated ∨
    (G.kind n = .alloc ∧ d.allocated = Function.update c.allocated n (c.allocated n + 1)) := by
  cases h with
  | alloc hkind => exact Or.inr ⟨hkind, rfl⟩
  | _ => exact Or.inl rfl

theorem allocated_le_of_exec (h : Exec G n c d) (a : N) : c.allocated a ≤ d.allocated a := by
  obtain heq | ⟨-, heq⟩ := allocated_of_exec h
  · rw [heq]
  · rw [heq]
    by_cases ha : a = n
    · subst ha
      rw [Function.update_self]
      omega
    · rw [Function.update_of_ne ha]

omit [DecidableEq N] in
theorem Configuration.Numbered.operand (hc : c.Numbered) {x : PSNode N} {l : Address N}
    (h : c.operand x = some l) : l.inst.number < c.allocated l.inst.site := by
  cases x with
  | node n => exact hc.value n l h
  | nullptr => cases h
  | unknownMemory => cases h
  | invalidated => cases h

theorem Configuration.Numbered.setValue (hc : c.Numbered) {v : Option (Address N)}
    (hv : ∀ l, v = some l → l.inst.number < c.allocated l.inst.site) : (c.setValue n v).Numbered where
  value := by
    intro x l hl
    by_cases hx : x = n
    · subst hx
      exact hv l (by simpa [Configuration.setValue] using hl)
    · exact hc.value x l (by simpa [Configuration.setValue, hx] using hl)
  memory := hc.memory

theorem stored_of_exec {value address : PSNode N} {a : Address N}
    (hkind : G.kind n = .store value address) (ha : c.operand address = some a)
    (h : Exec G n c d) :
    ∃ m, Configuration.Stored c.memory a (c.operand value) m ∧ d = { c with memory := m } := by
  cases h with
  | store hkind' ha' hstored =>
      rw [hkind, Kind.store.injEq] at hkind'
      obtain ⟨rfl, rfl⟩ := hkind'
      obtain rfl := Option.some.inj (ha.symm.trans ha')
      exact ⟨_, hstored, rfl⟩
  | storeNone hkind' ha' =>
      rw [hkind, Kind.store.injEq] at hkind'
      obtain ⟨rfl, rfl⟩ := hkind'
      rw [ha] at ha'
      cases ha'
  | alloc hkind' | constant hkind' | constantNone hkind' | cast hkind' | phi hkind' | gep hkind'
  | gepNone hkind' | load hkind' | loadNone hkind' | memcpy hkind' | skip hkind' =>
      simp [hkind] at hkind'

theorem Configuration.Numbered.exec (hc : c.Numbered) (h : Exec G n c d) : d.Numbered := by
  have hle := allocated_le_of_exec h
  cases h with
  | alloc hkind =>
      constructor
      · intro x l hl
        by_cases hx : x = n
        · subst hx
          simp only [Configuration.setValue, Function.update_self, Option.some.injEq] at hl
          subst hl
          show c.allocated x < Function.update c.allocated x (c.allocated x + 1) x
          rw [Function.update_self]
          exact Nat.lt_succ_self _
        · have hl : c.value x = some l := by simpa [Configuration.setValue, hx] using hl
          exact (hc.value x l hl).trans_le (hle _)
      · exact fun k l hl => (hc.memory k l hl).imp (·.trans_le (hle _)) (·.trans_le (hle _))
  | constant _ _ hi _ =>
      apply hc.setValue
      rintro l ⟨rfl⟩
      exact hi
  | constantNone => exact hc.setValue (fun l h => by cases h)
  | cast => exact hc.setValue fun l hl => hc.operand hl
  | phi => exact hc.setValue fun l hl => hc.operand hl
  | gep _ hsource _ =>
      apply hc.setValue
      rintro l ⟨rfl⟩
      have hnumber := hc.operand hsource
      exact hnumber
  | gepNone => exact hc.setValue (fun l h => by cases h)
  | load => exact hc.setValue fun l hl => (hc.memory _ l hl).2
  | loadNone => exact hc.setValue (fun l h => by cases h)
  | @store _ _ a _ m _ haddress hstored =>
      refine ⟨hc.value, fun k l hl => ?_⟩
      have hl : m k = some l := hl
      obtain ⟨hnew, hold⟩ := hstored
      by_cases hk : k = a
      · subst hk
        rw [hnew] at hl
        exact ⟨hc.operand haddress, hc.operand hl⟩
      · obtain h | h := hold k hk
        · exact hc.memory k l (h ▸ hl)
        · rw [h] at hl
          cases hl
  | storeNone => exact hc
  | @memcpy _ _ _ src dest bytes _ m _ _ hdest _ hcopied =>
      refine ⟨hc.value, fun k l hl => ?_⟩
      have hl : m k = some l := hl
      obtain h | h | ⟨i, -, rfl, h⟩ := hcopied.2.2 k
      · rw [h] at hl
        cases hl
      · exact hc.memory k l (h ▸ hl)
      · have hnumber := hc.operand hdest
        exact ⟨hnumber, (hc.memory _ l (h ▸ hl)).2⟩
  | skip => exact hc

end Instances

namespace FS

/-- The pointers to allocations are one, at a known offset of an allocation that does not follow
itself. -/
def OnePlace (G : PointerGraph N) (S : PointsToSet N) : Prop :=
  ∀ a o, ⟨.node a, o⟩ ∈ S → G.kind a = .alloc → o ≠ .unknown ∧ a ∉ G.successors a ∧
    ∀ b o', ⟨.node b, o'⟩ ∈ S → G.kind b = .alloc → b = a ∧ o' = o

/-- **What a store overwrites is one place.** -/
def StrongUpdatesSure [Fintype N] (G : PointerGraph N) (s : State N (Key N)) : Prop :=
  ∀ n value address, G.kind n = .store value address → OffLoops G (s.pts address) →
    OnePlace G (s.pts address)

/-- The executions in which every store has an address. -/
inductive ExecutesStores (G : PointerGraph N) : N → Configuration N → Prop
  | root {c d : Configuration N} : ExecAll G G.globals .start c →
      (∀ value address, G.kind G.root = .store value address → (c.operand address).isSome = true) →
      Exec G G.root c d → ExecutesStores G G.root d
  | edge {n m : N} {c d : Configuration N} : ExecutesStores G n c → m ∈ G.successors n →
      (∀ value address, G.kind m = .store value address → (c.operand address).isSome = true) →
      Exec G m c d → ExecutesStores G m d

/-- The set of every node admits its value, and the memory map of the node the contents of the
memory. -/
def Covered (t : MapState N) (n : N) (c : Configuration N) : Prop :=
  (∀ m l, c.value m = some l → (t.state.pts (.node m)).Admits l.pointer) ∧
    ∃ mm, t.data n = some mm ∧ ∀ k l, c.memory k = some l →
      t.state.Admits (.cell (mm, .node k.inst.site) ⟨k.offset⟩, l.pointer)

section Executions

variable {G : PointerGraph N} {order : KeyOrder N} {opts : PointerAnalysisOptions}

/-! ## How often an allocation is executed -/

/-- What an execution to the node allocated: the sites are before the node or among the global nodes,
and a site with two instances is on a cycle. -/
structure Counted (G : PointerGraph N) (n : N) (c : Configuration N) : Prop where
  numbered : c.Numbered
  once : ∀ a, c.allocated a ≤ 1 ∨ (G.Reaches G.root a ∧ Relation.TransGen G.Edge a a)
  before : ∀ a, 0 < c.allocated a → Seen G n a

omit [DecidableEq N] in
/-- The root does not reach the global nodes. -/
theorem Intraprocedural.not_reaches_global (hG : Intraprocedural G) {g : N} (hg : g ∈ G.globals) :
    ¬ G.Reaches G.root g := by
  intro h
  obtain ⟨hpred, hne⟩ := hG.globals g hg
  obtain heq | ⟨b, -, hedge⟩ := Relation.ReflTransGen.cases_tail h
  · exact hne heq
  · have hmem := hG.edge_iff.1 hedge
    rw [hpred] at hmem
    cases hmem

/-- Every global node is executed once. -/
theorem counted_globals {l : List N} {c₀ c : Configuration N} (h : ExecAll G l c₀ c) :
    c₀ = .start → l.Nodup →
      c.Numbered ∧ (∀ a, c.allocated a ≤ 1) ∧ ∀ a, 0 < c.allocated a → a ∈ l := by
  induction h with
  | nil =>
      rintro rfl -
      exact ⟨⟨nofun, nofun⟩, fun _ => Nat.zero_le 1, fun a ha => absurd ha (Nat.lt_irrefl 0)⟩
  | @snoc l g c d e _ hexec ih =>
      intro hstart hnodup
      obtain ⟨hl, -, hnot⟩ := List.nodup_append.1 hnodup
      obtain ⟨hnumbered, hone, hmem⟩ := ih hstart hl
      refine ⟨hnumbered.exec hexec, ?_, ?_⟩
      · intro a
        obtain heq | ⟨-, heq⟩ := allocated_of_exec hexec
        · rw [heq]
          exact hone a
        · rw [heq]
          by_cases ha : a = g
          · -- it was not executed before
            subst ha
            have hzero : d.allocated a = 0 := by
              by_contra hne
              exact hnot a (hmem a (Nat.pos_of_ne_zero hne)) a (List.mem_singleton_self a) rfl
            rw [Function.update_self, hzero]
          · rw [Function.update_of_ne ha]
            exact hone a
      · intro a ha
        obtain heq | ⟨-, heq⟩ := allocated_of_exec hexec
        · rw [heq] at ha
          exact List.mem_append_left _ (hmem a ha)
        · by_cases hag : a = g
          · simp [hag]
          · rw [heq, Function.update_of_ne hag] at ha
            exact List.mem_append_left _ (hmem a ha)

/-- One node is executed: what was allocated before was so by nodes before it, or it comes back to
itself. -/
theorem Counted.exec {m : N} {c d : Configuration N} (hnumbered : c.Numbered)
    (hreach : G.Reaches G.root m)
    (honce : ∀ a, c.allocated a ≤ 1 ∨ (G.Reaches G.root a ∧ Relation.TransGen G.Edge a a))
    (hbefore : ∀ a, 0 < c.allocated a → Seen G m a)
    (hself : 0 < c.allocated m → Relation.TransGen G.Edge m m) (h : Exec G m c d) :
    Counted G m d := by
  refine ⟨hnumbered.exec h, ?_, ?_⟩
  · intro a
    obtain heq | ⟨-, heq⟩ := allocated_of_exec h
    · rw [heq]
      exact honce a
    · rw [heq]
      by_cases ha : a = m
      · subst ha
        rw [Function.update_self]
        obtain hzero | hpos := Nat.eq_zero_or_pos (c.allocated a)
        · exact Or.inl (by omega)
        · exact Or.inr ⟨hreach, hself hpos⟩
      · rw [Function.update_of_ne ha]
        exact honce a
  · intro a ha
    obtain heq | ⟨-, heq⟩ := allocated_of_exec h
    · rw [heq] at ha
      exact hbefore a ha
    · by_cases ham : a = m
      · exact ham ▸ Or.inl .refl
      · rw [heq, Function.update_of_ne ham] at ha
        exact hbefore a ha

theorem Counted.root (hG : Intraprocedural G) {c d : Configuration N}
    (hglobals : ExecAll G G.globals .start c) (h : Exec G G.root c d) : Counted G G.root d := by
  obtain ⟨hnumbered, hone, hmem⟩ := counted_globals hglobals rfl G.nodup_globals
  have hbefore : ∀ a, 0 < c.allocated a → ¬ G.Reaches G.root a := fun a ha =>
    hG.not_reaches_global (hmem a ha)
  exact Counted.exec hnumbered .refl (fun a => Or.inl (hone a)) (fun a ha => Or.inr (hbefore a ha))
    (fun hpos => absurd .refl (hbefore _ hpos)) h

theorem Counted.edge {n m : N} {c d : Configuration N} (hc : Counted G n c)
    (hn : G.Reaches G.root n) (hedge : G.Edge n m) (h : Exec G m c d) : Counted G m d := by
  refine Counted.exec hc.numbered (hn.tail hedge) hc.once (fun a ha => ?_) (fun hpos => ?_) h
  · exact (hc.before a ha).imp_left fun hreach => hreach.tail hedge
  · obtain hreach | hnot := hc.before m hpos
    · exact Relation.TransGen.tail' hreach hedge
    · exact absurd (hn.tail hedge) hnot

/-- An allocation that a cycle goes through is on a loop. -/
theorem isOnLoop_of_cycle [Fintype N] (hG : Intraprocedural G) {a : N}
    (hreach : G.Reaches G.root a) (hcycle : Relation.TransGen G.Edge a a)
    (hself : a ∉ G.successors a) : isOnLoop G G.parent (.node a) = true := by
  have hpath : ∀ {x y}, G.Reaches x y →
      Relation.ReflTransGen (fun a b => b ∈ G.successors a) x y := fun h =>
    Relation.ReflTransGen.mono
      (fun x y hxy => (G.mem_predecessors x y).1 (hG.edge_iff.1 hxy)) _ _ h
  obtain ⟨b, hb, hback⟩ := Relation.TransGen.head'_iff.1 hcycle
  have hb' : b ∈ G.successors a := (G.mem_predecessors a b).1 (hG.edge_iff.1 hb)
  have hloop := G.inLoop_of_cycle (hpath hreach) hb' (fun heq => hself (heq ▸ hb')) (hpath hback)
  obtain ⟨i, hi, hroot⟩ := hG.parent a hreach
  simp [isOnLoop, hi, hroot, hloop]

/-- **An allocation on no loop makes one instance.** -/
theorem Counted.number_eq_zero [Fintype N] (hG : Intraprocedural G) {n : N} {c : Configuration N}
    (hc : Counted G n c) {a : N} (hoff : isOnLoop G G.parent (.node a) = false)
    (hself : a ∉ G.successors a) {i : Nat} (hi : i < c.allocated a) : i = 0 := by
  obtain hone | ⟨hreach, hcycle⟩ := hc.once a
  · omega
  · rw [isOnLoop_of_cycle hG hreach hcycle hself] at hoff
    cases hoff

/-! ## The global nodes -/

/-- A fact about a set of the listed nodes, or one that a map of theirs admits. -/
def KnownTo (l : List N) (s : MapState N) (f : Fact N (PSNode N)) : Prop :=
  (∃ g ∈ l, ∃ mm, s.data g = some mm ∧ AdmitsIn s.state mm f) ∧ ∀ o, f.1 = .node (.node o) → o ∈ l

omit [DecidableEq N] in
theorem AddressesKnown.before {s t : State N (Key N)} (h : s.Le t) (ht : AddressesKnown G t) :
    AddressesKnown G s := fun n x hx hmem =>
  ht n x hx (PointsToSet.Grows.widen_mem (h.read (.node x)) (p := .unknownPointer) hmem)

section Run

variable [Fintype N]

/-- After the turn of a node that needs a map it has one. -/
theorem exists_data_step (order : KeyOrder N) (opts : PointerAnalysisOptions) {n : N}
    (h : needsMerge G n = true) (s : MapState N) :
    ∃ mm, (step G order opts n s).1.data n = some mm := by
  rw [data_step]
  obtain ⟨hsome, heq⟩ | ⟨-, -, ⟨-, hdata, -⟩ | ⟨hshare, -⟩⟩ :=
    beforeProcessed_cases (G := G) order n s
  · rw [heq]
    exact Option.isSome_iff_exists.1 hsome
  · exact ⟨n, by rw [hdata, Function.update_self]⟩
  · rw [h] at hshare
    cases hshare

/-- The turn of a global node that reads no memory makes the conclusions of its rules known. -/
theorem knownTo_step (hG : Intraprocedural G) {l : List N} {g : N} (hg : g ∈ G.globals)
    (hreads : FI.readsMemory G g = false) {s : MapState N} (hs : Shared G s)
    (hknown : AddressesKnown G (step G order opts g s).1.state) {qs : List (Fact N (PSNode N))}
    {f : Fact N (PSNode N)} (hrule : FI.Transfer G g qs f) (hqs : ∀ q ∈ qs, KnownTo l s q) :
    KnownTo (l ++ [g]) (step G order opts g s).1 f := by
  have hmerge : needsMerge G g = true := by
    unfold needsMerge
    rw [(hG.globals g hg).1]
  obtain ⟨mm, hmm⟩ := exists_data_step order opts hmerge s
  have hrest : (beforeProcessed G order g s).1.state.Le (step G order opts g s).1.state :=
    (le_process g _).trans (le_afterProcessed g _)
  refine ⟨⟨g, by simp, mm, hmm, ?_⟩, fun o ho => ?_⟩
  · apply AdmitsIn.mono (le_afterProcessed g (process G opts g (beforeProcessed G order g s).1).1)
    rw [data_step] at hmm
    apply admits_process hmm (hs.initial.trans (le_beforeProcessed g s))
      (fun x hx _ => hknown.before hrest g x hx) hrule
    rintro ⟨x | ⟨k, off⟩, p⟩ hq
    · obtain ⟨⟨o, -, mm', -, hadmits⟩, -⟩ := hqs _ hq
      exact State.pts_admits_mono (le_beforeProcessed g s) hadmits
    · -- it reads no memory
      rw [hrule.readsMemory hq] at hreads
      cases hreads
  · obtain ⟨y, p⟩ := f
    obtain rfl : y = .node (.node o) := ho
    obtain ⟨rfl⟩ := hrule.eq_node
    simp

/-- **The global nodes.** After them their sets and maps admit what they produce. -/
theorem grounded_afterGlobals (hG : Intraprocedural G)
    (hreads : ∀ g ∈ G.globals, FI.readsMemory G g = false)
    (hknown : AddressesKnown G (afterGlobals G order opts).state) {c : Configuration N}
    (h : ExecAll G G.globals .start c) :
    FI.Grounded G (KnownTo G.globals (afterGlobals G order opts)) c := by
  have hle : ∀ (l : List N) (s : MapState N),
      s.state.Le (pass (step G order opts) l s).1.state := fun l s =>
    pass_rel (R := fun s t : MapState N => s.state.Le t.state) (fun s => State.Le.refl s.state)
      (fun _ _ _ => State.Le.trans) (fun n _ s => le_step n s) s
  have hpasses : ∀ l c₀ c, ExecAll G l c₀ c → c₀ = .start → ∀ l₂, G.globals = l ++ l₂ →
      FI.Grounded G (KnownTo l (pass (step G order opts) l (start G)).1) c := by
    intro l c₀ c h
    induction h with
    | nil => exact fun hstart _ _ => hstart ▸ FI.Grounded.start _
    | @snoc l g c d e _ hexec ih =>
        intro hstart l₂ hl
        have hl : G.globals = l ++ g :: l₂ := by simpa using hl
        have hg : g ∈ G.globals := by simp [hl]
        let s := (pass (step G order opts) l (start G)).1
        have hpass : (pass (step G order opts) (l ++ [g]) (start G)).1 =
            (step G order opts g s).1 := by
          rw [pass_append]
          rfl
        rw [hpass]
        apply (ih hstart _ hl).exec _ _ hexec
        · rintro f ⟨⟨o, ho, mm, hmm, hf⟩, hnode⟩
          exact ⟨⟨o, List.mem_append_left _ ho, mm, data_step_of_some g hmm,
            hf.mono (le_step g s)⟩, fun o ho => List.mem_append_left _ (hnode o ho)⟩
        · intro qs f hrule hqs
          have hshared : Shared G s := pass_invariant (fun n _ _ hs => hs.step hG n) shared_start
          refine knownTo_step hG hg (hreads g hg) hshared (hknown.before ?_) hrule hqs
          -- what comes behind it in the pass adds to the state
          have hlast := hle l₂ (step G order opts g s).1
          show State.Le _ (pass (step G order opts) G.globals (start G)).1.state
          rw [hl, pass_append]
          exact hlast
  exact hpasses _ _ _ h rfl [] (by simp)

/-! ## The paths -/

/-- Along an edge the map of the node keeps the memory that the node does not overwrite. -/
theorem grounded_along (hG : Intraprocedural G) {t : MapState N} (ht : Shared G t)
    {n m mm mm' : N} (hm : Closed G m t) (hmm : t.data n = some mm) (hmm' : t.data m = some mm')
    (hedge : G.Edge n m) {c : Configuration N} (hc : FI.Grounded G (Knows G n mm t.state) c)
    (haddress : ∀ value address, G.kind m = .store value address → SeenOperand G m address)
    (hkept : ∀ k l, c.memory k = some l → ∀ off, off = ⟨k.offset⟩ ∨ off = .unknown →
      ¬ Overwrites G m t.state (.node k.inst.site) off) :
    FI.Grounded G (Knows G m mm' t.state) c := by
  have hpred : n ∈ G.predecessors m := hG.edge_iff.1 hedge
  have hcell : ∀ x off q, (t.state.cell (mm, x) off).Admits q → ¬ Overwrites G m t.state x off →
      (t.state.cell (mm', x) off).Admits q := by
    obtain ⟨hmerge, rfl⟩ | ⟨-, p, hp, hdata⟩ := ht.owner m mm' hmm'
    · exact fun x off q => hm.merged hmerge haddress n hpred mm hmm x off q
    · -- the map is that of the only predecessor
      rw [hp] at hpred
      obtain rfl := List.mem_singleton.1 hpred
      obtain rfl : mm = mm' := Option.some.inj (hmm.symm.trans hdata)
      exact fun x off q hq _ => hq
  constructor
  · intro x l hl
    obtain ⟨halloc, hadmits, hseen⟩ := hc.value x l hl
    refine ⟨halloc, hadmits, fun y hy o ho => ?_⟩
    exact (hseen y hy o ho).imp_left fun hreach => hreach.tail hedge
  · intro k l hl
    obtain ⟨halloc, halloc', hadmits, -⟩ := hc.memory k l hl
    refine ⟨halloc, halloc', ?_, nofun⟩
    obtain h | h := (hadmits : t.state.Admits (.cell (mm, _) _, _))
    · exact Or.inl (hcell _ _ _ h (hkept k l hl _ (Or.inl rfl)))
    · exact Or.inr (hcell _ _ _ h (hkept k l hl _ (Or.inr rfl)))

/-- **A store overwrites one place**: of the memory that there was, only the place that it writes
to. -/
theorem not_overwrites (hG : Intraprocedural G) {t : MapState N} (hknown : AddressesKnown G t.state)
    (hsure : StrongUpdatesSure G t.state) {n m mm : N} {c : Configuration N}
    (hc : FI.Grounded G (Knows G n mm t.state) c) (hcount : Counted G n c) {value address : PSNode N}
    (hkind : G.kind m = .store value address) {a : Address N} (ha : c.operand address = some a)
    {k l : Address N} (hk : c.memory k = some l) (hne : k ≠ a) {off : Offset}
    (hoff : off = ⟨k.offset⟩ ∨ off = .unknown) :
    ¬ Overwrites G m t.state (.node k.inst.site) off := by
  rintro ⟨value', address', hkind', hloops, hmem⟩
  rw [hkind, Kind.store.injEq] at hkind'
  obtain ⟨rfl, rfl⟩ := hkind'
  have hplace := hsure m value address hkind hloops
  obtain ⟨hsite, -⟩ := hc.memory k l hk
  obtain ⟨hasite, hadmits, -⟩ := hc.operand ha
  -- the address is in the set as it is
  have hcovers : (t.state.pts address).Covers a.pointer :=
    (hadmits : PointsToSet.Admits _ _).resolve_right
      (hknown m address (by simp [addresses, hkind]))
  have hamem : a.pointer ∈ t.state.pts address := by
    obtain hmem' | hwide := hcovers
    · exact hmem'
    · exact absurd rfl (hplace _ _ hwide hasite).1
  obtain ⟨-, hself, hone⟩ := hplace _ _ hamem hasite
  obtain ⟨hsame, hoffset⟩ := hone _ _ hmem hsite
  have hloop := hloops _ _ hamem hasite
  -- one instance, and one offset of it
  have hnumber := hcount.number_eq_zero hG hloop hself (hcount.numbered.operand ha)
  have hnumber' := hcount.number_eq_zero hG hloop hself
    (hsame ▸ (hcount.numbered.memory k l hk).1)
  apply hne
  obtain ⟨⟨ksite, knumber⟩, koffset⟩ := k
  obtain ⟨⟨asite, anumber⟩, aoffset⟩ := a
  obtain rfl : ksite = asite := hsame
  obtain rfl : anumber = 0 := hnumber
  obtain rfl : knumber = 0 := hnumber'
  obtain hk' | hk' := hoff
  · obtain rfl : koffset = aoffset := congrArg Offset.offset (hk'.symm.trans hoffset)
    rfl
  · exact absurd (hoffset.symm.trans hk') (hplace _ _ hamem hasite).1

/-- What a node produces it knows. -/
theorem Closed.grounded_exec {t : MapState N} (hknown : AddressesKnown G t.state) {m mm : N}
    (hm : Closed G m t) (hmm : t.data m = some mm) {c d : Configuration N}
    (hc : FI.Grounded G (Knows G m mm t.state) c) (h : Exec G m c d) :
    FI.Grounded G (Knows G m mm t.state) d := by
  apply hc.exec (fun _ => id) _ h
  intro qs f hrule hqs
  refine ⟨hm.transfer mm hmm qs f hrule hqs fun x hx _ => hknown m x hx, ?_⟩
  obtain ⟨y, p⟩ := f
  rintro x rfl o rfl
  obtain ⟨rfl⟩ := hrule.eq_node
  exact seen_self _

omit [DecidableEq N] [Fintype N] in
/-- The root starts with what the global nodes produced. -/
theorem grounded_root (hG : Intraprocedural G) {s₀ t : MapState N} (hextends : Extends G s₀ t)
    {mm : N} (hmm : t.data G.root = some mm) {c : Configuration N}
    (hc : FI.Grounded G (KnownTo G.globals s₀) c) :
    FI.Grounded G (Knows G G.root mm t.state) c := by
  apply hc.mono
  rintro ⟨x | ⟨k, off⟩, p⟩ ⟨⟨g, hg, gm, hgm, hadmits⟩, hnode⟩
  · refine ⟨State.pts_admits_mono hextends.le hadmits, ?_⟩
    rintro y hy o rfl
    obtain rfl : x = .node o := by injection hy
    exact Or.inr (hG.not_reaches_global (hnode o rfl))
  · refine ⟨?_, nofun⟩
    obtain h | h := (hadmits : s₀.state.Admits (.cell (gm, k) off, p))
    · exact Or.inl (hextends.rooted mm hmm g hg gm hgm k off p h)
    · exact Or.inr (hextends.rooted mm hmm g hg gm hgm k .unknown p h)

/-- **One node.** What an execution shows at a node, the map of the next node admits after it. -/
theorem grounded_edge (hG : Intraprocedural G) {t : MapState N} (ht : Shared G t)
    (hknown : AddressesKnown G t.state) (hsure : StrongUpdatesSure G t.state) {n m mm mm' : N}
    (hm : Closed G m t) (hmm : t.data n = some mm) (hmm' : t.data m = some mm')
    (hedge : G.Edge n m) {c d : Configuration N} (hc : FI.Grounded G (Knows G n mm t.state) c)
    (hcount : Counted G n c)
    (hstores : ∀ value address, G.kind m = .store value address → (c.operand address).isSome = true)
    (h : Exec G m c d) : FI.Grounded G (Knows G m mm' t.state) d := by
  by_cases hstore : ∃ value address, G.kind m = .store value address
  · obtain ⟨value, address, hkind⟩ := hstore
    obtain ⟨a, ha⟩ := Option.isSome_iff_exists.1 (hstores value address hkind)
    -- the store does not read the place that it writes to
    let c' : Configuration N := { c with memory := Function.update c.memory a none }
    have hmemory : ∀ k l, c'.memory k = some l → k ≠ a ∧ c.memory k = some l := by
      intro k l hl
      have hl : Function.update c.memory a none k = some l := hl
      by_cases hk : k = a
      · rw [hk, Function.update_self] at hl
        cases hl
      · rw [Function.update_of_ne hk] at hl
        exact ⟨hk, hl⟩
    have hc' : FI.Grounded G (Knows G n mm t.state) c' :=
      ⟨hc.value, fun k l hl => hc.memory k l (hmemory k l hl).2⟩
    have hcarried : FI.Grounded G (Knows G m mm' t.state) c' := by
      apply grounded_along hG ht hm hmm hmm' hedge hc'
      · intro value' address' hkind' o ho
        rw [hkind, Kind.store.injEq] at hkind'
        obtain ⟨-, rfl⟩ := hkind'
        have hseen := (hc.operand ha).2.2 address rfl o ho
        exact hseen.imp_left fun hreach => hreach.tail hedge
      · intro k l hl off hoff
        obtain ⟨hne, hl⟩ := hmemory k l hl
        exact not_overwrites hG hknown hsure hc hcount hkind ha hl hne hoff
    obtain ⟨memory, hstored, rfl⟩ := stored_of_exec hkind ha h
    have hstored' : Configuration.Stored c'.memory a (c'.operand value) memory := by
      refine ⟨hstored.1, fun k hk => ?_⟩
      show memory k = Function.update c.memory a none k ∨ memory k = none
      rw [Function.update_of_ne hk]
      exact hstored.2 k hk
    have hexec : Exec G m c' { c with memory := memory } := .store (c := c') hkind ha hstored'
    exact hm.grounded_exec hknown hmm' hcarried hexec
  · refine hm.grounded_exec hknown hmm' ?_ h
    have hnot : ∀ value address, G.kind m ≠ .store value address := fun value address hkind =>
      hstore ⟨value, address, hkind⟩
    apply grounded_along hG ht hm hmm hmm' hedge hc
    · exact fun value address hkind => absurd hkind (hnot value address)
    · rintro k l - off - ⟨value, address, hkind, -⟩
      exact hnot value address hkind

/-- **The flow-sensitive analysis is sound** when every strong update overwrites one place. -/
theorem covered_of_executes (hG : Intraprocedural G)
    (hreads : ∀ g ∈ G.globals, FI.readsMemory G g = false) {fuel : Nat} {t : MapState N}
    (hrun : run G order opts fuel = some t) (hknown : AddressesKnown G t.state)
    (hsure : StrongUpdatesSure G t.state) {n : N} {c : Configuration N}
    (h : ExecutesStores G n c) : Covered t n c := by
  obtain ⟨hclosed, ht, hextends⟩ := closed_run hG hrun
  have hpath : G.Reaches G.root n ∧ Counted G n c ∧
      ∃ mm, t.data n = some mm ∧ FI.Grounded G (Knows G n mm t.state) c := by
    induction h with
    | root hglobals _ hexec =>
        have hroot := hclosed G.root .refl
        obtain ⟨mm, hmm⟩ := hroot.data
        have hstart := grounded_root hG hextends hmm
          (grounded_afterGlobals hG hreads (hknown.before hextends.le) hglobals)
        exact ⟨.refl, Counted.root hG hglobals hexec, mm, hmm,
          hroot.grounded_exec hknown hmm hstart hexec⟩
    | @edge n m c d _ hsucc hstores hexec ih =>
        obtain ⟨hreach, hcount, mm, hmm, hgrounded⟩ := ih
        have hedge : G.Edge n m := hG.edge_iff.2 ((G.mem_predecessors n m).2 hsucc)
        have hm := hclosed m (hreach.tail hedge)
        obtain ⟨mm', hmm'⟩ := hm.data
        exact ⟨hreach.tail hedge, hcount.edge hreach hedge hexec, mm', hmm',
          grounded_edge hG ht hknown hsure hm hmm hmm' hedge hgrounded hcount hstores hexec⟩
  obtain ⟨-, -, mm, hmm, hgrounded⟩ := hpath
  exact ⟨fun m l hl => (hgrounded.value m l hl).2.1, mm, hmm,
    fun k l hl => (hgrounded.memory k l hl).2.2.1⟩

end Run

end Executions

/-! ## A strong update of two places -/

omit [DecidableEq N] in
/-- The pointers to allocations are one when there is one pointer. -/
theorem onePlace_of_pointers {G : PointerGraph N} {S : PointsToSet N} {a : N} {o : Offset}
    (h : S.pointers = [⟨.node a, o⟩]) (ho : o ≠ .unknown) (hself : a ∉ G.successors a) :
    OnePlace G S := by
  have hmem : ∀ b o', (⟨.node b, o'⟩ : Pointer N) ∈ S → b = a ∧ o' = o := by
    intro b o' hb
    have hb : (⟨.node b, o'⟩ : Pointer N) ∈ S.pointers := hb
    rw [h, List.mem_singleton, Pointer.mk.injEq] at hb
    exact ⟨PSNode.node.inj hb.1, hb.2⟩
  intro b o' hb _
  obtain ⟨rfl, rfl⟩ := hmem b o' hb
  exact ⟨ho, hself, fun c o'' hc _ => hmem c o'' hc⟩

theorem storeToEither_globals : ([] : List (Fin 6)).Nodup := List.nodup_nil

/-- `a = alloc; b = alloc; *a = b; p = phi(a, b); *p = a; x = *a`. -/
def storeToEither : PointerGraph (Fin 6) where
  kind := ![.alloc, .alloc, .store (.node 1) (.node 0), .phi [.node 0, .node 1],
    .store (.node 0) (.node 3), .load (.node 0)]
  successors := ![[1], [2], [3], [4], [5], []]
  predecessors := ![[], [0], [1], [2], [3], [4]]
  callees := fun _ => []
  returnSites := fun _ => []
  size := ![8, 8, 0, 0, 0, 0]
  isHeap := fun _ => false
  isGlobal := fun _ => false
  zeroInitialized := fun _ => false
  subgraphs := [0]
  parent := fun _ => some 0
  globals := []
  root := 0
  mem_predecessors := by decide
  nodup_globals := storeToEither_globals

theorem intraprocedural_storeToEither : Intraprocedural storeToEither :=
  ⟨fun _ => rfl, fun _ => rfl, fun _ _ => ⟨0, rfl, rfl⟩, fun _ hg => absurd hg List.not_mem_nil, rfl⟩

/-- The second store may write to `a` and to `b`, and drops what both had. On the path on which `p`
is `b` the load still gets `b` from `a`, but its set has only `a`. -/
theorem strong_update_loses : ∃ order fuel t n c,
    Intraprocedural storeToEither ∧ run storeToEither order {} fuel = some t ∧
      AddressesKnown storeToEither t.state ∧ ExecutesStores storeToEither n c ∧
      ¬ Covered t n c := by
  let order : KeyOrder (Fin 6) :=
    .ofNodes (List.finRange 6) (List.nodup_finRange 6) List.mem_finRange
  obtain ⟨t, ht⟩ := Option.isSome_iff_exists.1
    (show (run storeToEither order {} 3).isSome = true by decide +kernel)
  have hsets : (run storeToEither order {} 3).map (fun t => ((t.state.pts (.node 0)).pointers,
      (t.state.pts (.node 3)).pointers, (t.state.pts (.node 5)).pointers)) =
      some ([⟨.node 0, 0⟩], [⟨.node 0, 0⟩, ⟨.node 1, 0⟩], [⟨.node 0, 0⟩]) := by decide +kernel
  rw [ht, Option.map_some, Option.some.injEq, Prod.mk.injEq, Prod.mk.injEq] at hsets
  obtain ⟨ha, hp, hx⟩ := hsets
  have halloc₀ : ExecutesStores storeToEither 0 _ := .root .nil nofun (.alloc rfl)
  have halloc₁ : ExecutesStores storeToEither 1 _ := halloc₀.edge (by decide) nofun (.alloc rfl)
  have hfirst : ExecutesStores storeToEither 2 _ :=
    halloc₁.edge (by decide) (by rintro _ _ ⟨⟩; rfl)
      (.store rfl rfl (Configuration.stored_update _ _ _))
  have hphi : ExecutesStores storeToEither 3 _ :=
    hfirst.edge (by decide) nofun
      (.phi rfl (show PSNode.node 1 ∈ [PSNode.node 0, PSNode.node 1] by decide))
  have hsecond : ExecutesStores storeToEither 4 _ :=
    hphi.edge (by decide) (by rintro _ _ ⟨⟩; rfl)
      (.store rfl rfl (Configuration.stored_update _ _ _))
  have hload : ExecutesStores storeToEither 5 _ := hsecond.edge (by decide) nofun (.load rfl rfl)
  refine ⟨order, 3, t, 5, _, intraprocedural_storeToEither, ht, ?_, hload, ?_⟩
  · have haddresses : ∀ n, ∀ x ∈ addresses storeToEither n, x = .node 0 ∨ x = .node 3 := by decide
    intro n x hx' hmem
    obtain rfl | rfl := haddresses n x hx'
    · have hmem : Pointer.unknownPointer ∈ (t.state.pts (.node 0)).pointers := hmem
      rw [ha] at hmem
      simp [Pointer.unknownPointer] at hmem
    · have hmem : Pointer.unknownPointer ∈ (t.state.pts (.node 3)).pointers := hmem
      rw [hp] at hmem
      simp [Pointer.unknownPointer] at hmem
  · rintro ⟨hvalues, -⟩
    have hadmits := hvalues 5 ⟨⟨1, 0⟩, 0⟩ (by decide)
    have hmem : ∀ q : Pointer (Fin 6), q ∈ t.state.pts (.node 5) → q = ⟨.node 0, 0⟩ := by
      intro q hq
      have hq : q ∈ (t.state.pts (.node 5)).pointers := hq
      rw [hx] at hq
      exact List.mem_singleton.1 hq
    obtain (hq | hq) | hq := hadmits
    · exact absurd (hmem _ hq) (by decide)
    · exact absurd (hmem _ hq) (by decide)
    · exact absurd (hmem _ hq) (by decide)

/-- `x` points to `t` in the execution, and where the run ends. -/
theorem covered_of_executes_storeThenLoad : ∃ order t c, run FI.storeThenLoad order {} 3 = some t ∧
    ExecutesStores FI.storeThenLoad 3 c ∧ c.value 3 = some ⟨⟨1, 0⟩, 0⟩ ∧ Covered t 3 c := by
  let order : KeyOrder (Fin 4) :=
    .ofNodes (List.finRange 4) (List.nodup_finRange 4) List.mem_finRange
  obtain ⟨t, ht⟩ := Option.isSome_iff_exists.1
    (show (run FI.storeThenLoad order {} 3).isSome = true by decide +kernel)
  have haddress : (run FI.storeThenLoad order {} 3).map (fun t => (t.state.pts (.node 0)).pointers) =
      some [⟨.node 0, 0⟩] := by decide +kernel
  rw [ht, Option.map_some, Option.some.injEq] at haddress
  have hG : Intraprocedural FI.storeThenLoad :=
    ⟨fun _ => rfl, fun _ => rfl, fun _ _ => ⟨0, rfl, rfl⟩, fun _ hg => absurd hg List.not_mem_nil,
      rfl⟩
  have hknown : AddressesKnown FI.storeThenLoad t.state := by
    have haddresses : ∀ n, ∀ x ∈ addresses FI.storeThenLoad n, x = .node 0 := by decide
    intro n x hx hmem
    obtain rfl := haddresses n x hx
    have hmem : Pointer.unknownPointer ∈ (t.state.pts (.node 0)).pointers := hmem
    rw [haddress] at hmem
    simp [Pointer.unknownPointer] at hmem
  have hsure : StrongUpdatesSure FI.storeThenLoad t.state := by
    intro n value address hkind _
    have haddresses : ∀ n, ∀ x ∈ addresses FI.storeThenLoad n, x = .node 0 := by decide
    obtain rfl := haddresses n address (by simp [addresses, hkind])
    exact onePlace_of_pointers haddress (by decide) (by decide)
  have halloc₀ : ExecutesStores FI.storeThenLoad 0 _ :=
    .root .nil (by rintro _ _ ⟨⟩) (.alloc rfl)
  have halloc₁ : ExecutesStores FI.storeThenLoad 1 _ :=
    halloc₀.edge (by decide) (by rintro _ _ ⟨⟩) (.alloc rfl)
  have hstore : ExecutesStores FI.storeThenLoad 2 _ :=
    halloc₁.edge (by decide) (by rintro _ _ ⟨⟩; rfl)
      (.store rfl rfl (Configuration.stored_update _ _ _))
  have hload : ExecutesStores FI.storeThenLoad 3 _ :=
    hstore.edge (by decide) (by rintro _ _ ⟨⟩) (.load rfl rfl)
  exact ⟨order, t, _, ht, hload, by decide,
    covered_of_executes hG (fun _ hg => absurd hg List.not_mem_nil) ht hknown hsure hload⟩

end FS

end Cape.PointerAnalysis
