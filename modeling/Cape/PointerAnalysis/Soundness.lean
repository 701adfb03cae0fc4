import Cape.Library.FinLiterals
import Cape.PointerAnalysis.ChangeTracking
import Cape.PointerAnalysis.Transfer

/-!
# Soundness of the flow-insensitive analysis

When the run ends, every value and every content of memory of an execution is admitted, provided that
no pass of the run hides a pointer (`FI.run_sound`). A pass hides a pointer when a node writes it to
memory without a report, since another node wrote it earlier in the pass, and a node that reads it,
which comes before both in the pass, is behind the silent writer but behind no node that reported.
Then the reader is not processed again (`FI.hidden_pointer`).
-/

set_option autoImplicit false

namespace Cape.PointerAnalysis

open Cape.Library

universe u

variable {N : Type u} [DecidableEq N]

namespace FI

/-! ## Facts -/

/-- What a node makes of facts about its operands and about memory. -/
inductive Transfer (G : PointerGraph N) : N → List (Fact N (PSNode N)) → Fact N (PSNode N) → Prop
  | alloc {n : N} : G.kind n = .alloc → Transfer G n [] (.node (.node n), ⟨.node n, 0⟩)
  | constant {n : N} {target : PSNode N} {off o : Offset} : G.kind n = .constant target off →
      (off = .unknown ∨ o = off) → Transfer G n [] (.node (.node n), ⟨target, o⟩)
  | copy {n : N} {op : PSNode N} {p : Pointer N} :
      (G.kind n = .cast op ∨ ∃ ops, G.kind n = .phi ops ∧ op ∈ ops) →
      Transfer G n [(.node op, p)] (.node (.node n), p)
  | gep {n : N} {source : PSNode N} {off o : Offset} {p : Pointer N} :
      G.kind n = .gep source off → (off = .unknown ∨ o = ⟨p.offset.offset + off.offset⟩) →
      Transfer G n [(.node source, p)] (.node (.node n), ⟨p.target, o⟩)
  | load {n a : N} {op : PSNode N} {o : Offset} {p : Pointer N} : G.kind n = .load op →
      G.kind a = .alloc →
      Transfer G n [(.node op, ⟨.node a, o⟩), (.cell (.node a) o, p)] (.node (.node n), p)
  | store {n a : N} {value address : PSNode N} {o : Offset} {p : Pointer N} :
      G.kind n = .store value address → G.kind a = .alloc →
      Transfer G n [(.node address, ⟨.node a, o⟩), (.node value, p)] (.cell (.node a) o, p)
  | memcpy {n a b : N} {src dest : PSNode N} {len o o' : Offset} {i : Nat} {p : Pointer N} :
      G.kind n = .memcpy src dest len → G.kind a = .alloc → G.kind b = .alloc →
      o.offset.toNat + i < 2 ^ 64 → (len = .unknown ∨ i < len.offset.toNat) →
      Transfer G n
        [(.node src, ⟨.node a, o⟩), (.node dest, ⟨.node b, o'⟩), (.cell (.node a) (o.shift i), p)]
        (.cell (.node b) (o'.shift i), p)

/-- No address of a store or a `memcpy` has the unknown pointer. -/
def AddressesKnown (G : PointerGraph N) (s : State N (PSNode N)) : Prop :=
  ∀ n, (∀ value address, G.kind n = .store value address →
      Pointer.unknownPointer ∉ s.pts address) ∧
    ∀ src dest len, G.kind n = .memcpy src dest len →
      Pointer.unknownPointer ∉ s.pts src ∧ Pointer.unknownPointer ∉ s.pts dest

variable {G : PointerGraph N} {opts : PointerAnalysisOptions}

theorem le_step (n : N) (s : State N (PSNode N)) : s.Le (step G opts n s).1 :=
  (rises_step G opts n s).le

omit [DecidableEq N] in
theorem AddressesKnown.before {s t : State N (PSNode N)} (h : s.Le t) (ht : AddressesKnown G t) :
    AddressesKnown G s := by
  have hkeeps : ∀ x, Pointer.unknownPointer ∈ s.pts x → Pointer.unknownPointer ∈ t.pts x :=
    fun x hx => PointsToSet.Grows.widen_mem (h.read (.node x)) (p := .unknownPointer) hx
  intro n
  refine ⟨fun value address hkind hmem => (ht n).1 value address hkind (hkeeps _ hmem), ?_⟩
  intro src dest len hkind
  obtain ⟨hsrc, hdest⟩ := (ht n).2 src dest len hkind
  exact ⟨fun hmem => hsrc (hkeeps _ hmem), fun hmem => hdest (hkeeps _ hmem)⟩

/-- The object of an allocation is found through its pointers. -/
theorem mem_getMemoryObjects {a : N} (ha : G.kind a = .alloc) (n : N) {q : Pointer N}
    (hq : q.target = .node a) (s : State N (PSNode N)) :
    .node a ∈ ((memory G).getMemoryObjects n q s).2 := by
  show _ ∈ (getMemoryObjects G n q s).2
  rw [getMemoryObjects_keys, hq]
  simp [allocation, isFunction, ha]

/-- **A node makes the conclusions of its rules hold.** -/
theorem fires {n : N} {qs : List (Fact N (PSNode N))} {f : Fact N (PSNode N)}
    {s : State N (PSNode N)} (hs : (State.initial G).Le s) (hknown : AddressesKnown G s)
    (hrule : Transfer G n qs f) (hqs : ∀ q ∈ qs, s.Admits q) : (step G opts n s).1.Admits f := by
  have hcovers : ∀ {x : PSNode N} {p : Pointer N}, Pointer.unknownPointer ∉ s.pts x →
      (s.pts x).Admits p → (s.pts x).Covers p := fun hx h => h.resolve_right hx
  cases hrule with
  | alloc hkind =>
      apply State.pts_admits_mono (hs.trans (le_step n s))
      left
      left
      simp [State.pts, State.initial, hkind]
  | constant hkind hoff =>
      apply State.pts_admits_mono (hs.trans (le_step n s))
      left
      obtain rfl | rfl := hoff
      · right
        simp [State.pts, State.initial, hkind, Pointer.widen]
      · left
        simp [State.pts, State.initial, hkind]
  | copy hkind =>
      exact (memory G).admits_copy opts hkind (hqs _ List.mem_cons_self)
  | gep hkind hoff =>
      exact (memory G).admits_gep opts hkind (hqs _ List.mem_cons_self) hoff
  | load hkind ha =>
      exact (memory G).admits_load opts hkind ha (hqs _ List.mem_cons_self)
        (hqs _ (List.mem_cons_of_mem _ List.mem_cons_self))
        fun q t _ hq => mem_getMemoryObjects ha n hq t
  | store hkind ha =>
      -- the address is no unknown pointer, so its object is found
      have haddress := hcovers ((hknown n).1 _ _ hkind) (hqs _ List.mem_cons_self)
      exact (memory G).admits_store opts hkind ha haddress
        (hqs _ (List.mem_cons_of_mem _ List.mem_cons_self))
        fun q t _ hq => mem_getMemoryObjects ha n hq t
  | memcpy hkind ha hb hwrap hlen =>
      obtain ⟨hsrc, hdest⟩ := (hknown n).2 _ _ _ hkind
      exact (memory G).admits_memcpy opts hkind ha hb (hcovers hsrc (hqs _ List.mem_cons_self))
        (hcovers hdest (hqs _ (List.mem_cons_of_mem _ List.mem_cons_self)))
        (hqs _ (List.mem_cons_of_mem _ (List.mem_cons_of_mem _ List.mem_cons_self))) hwrap hlen
        (fun q t _ hq => mem_getMemoryObjects ha n hq t)
        fun q t _ hq => mem_getMemoryObjects hb n hq t

/-! ## Rules with given premises -/

/-- A rule of a live node: the premises that `s₀` does not admit have emitters, a node for the facts
about its own set. -/
def Rule (G : PointerGraph N) (live : N → Prop) (s₀ : State N (PSNode N)) (n : N)
    (ps : List (N × Fact N (PSNode N))) (f : Fact N (PSNode N)) : Prop :=
  live n ∧ ∃ qs, Transfer G n qs f ∧ (∀ q ∈ qs, s₀.Admits q ∨ q ∈ ps.map Prod.snd) ∧
    ∀ p ∈ ps, p.2 ∈ qs ∧ ∀ x, p.2.1 = .node x → x = .node p.1

omit [DecidableEq N] in
theorem admits_of_read_eq {s t : State N (PSNode N)} (h : t.read = s.read)
    {f : Fact N (PSNode N)} (ht : t.Admits f) : s.Admits f := by
  obtain ⟨x | ⟨k, off⟩, p⟩ := f
  · have hx : t.pts x = s.pts x := congrFun h (.node x)
    have ht : (t.pts x).Admits p := ht
    rw [hx] at ht
    exact ht
  · have hoff : t.cell k off = s.cell k off := congrFun h (.cell k off)
    have hunknown : t.cell k .unknown = s.cell k .unknown := congrFun h (.cell k .unknown)
    exact ht.imp (fun h => hoff ▸ h) (fun h => hunknown ▸ h)

theorem derives (live : N → Prop) {s₀ : State N (PSNode N)} (hs₀ : (State.initial G).Le s₀) :
    Derives (step G opts) (Rule G live s₀) State.Admits (fun s => s₀.Le s)
      (AddressesKnown G) where
  keepsInv := fun n s hs => hs.trans (le_step n s)
  okBefore := fun n s hs => hs.before (le_step n s)
  keeps := fun n s f hf => State.Admits.mono (le_step n s) hf
  silent := fun n s f hreport hf =>
    admits_of_read_eq ((memory G).sameMemory_of_report opts n s hreport).read hf
  fires := by
    rintro n ps f s hs hok ⟨-, qs, hrule, hgiven, -⟩ hps
    apply fires (hs₀.trans hs) (hok.before (le_step n s)) hrule
    intro q hq
    obtain h | h := hgiven q hq
    · exact State.Admits.mono hs h
    · obtain ⟨p, hp, rfl⟩ := List.mem_map.1 h
      exact hps p hp

/-- The facts about the set of a node are its own. -/
theorem owned_node (o : N) (p : Pointer N) :
    Owned (step G opts) State.Admits o ((.node (.node o), p) : Fact N (PSNode N)) := by
  intro n s hne hf
  have hpts : (step G opts n s).1.pts (.node o) = s.pts (.node o) :=
    (memory G).pts_processNode_of_ne opts hne.symm s
  have hf : ((step G opts n s).1.pts (.node o)).Admits p := hf
  rw [hpts] at hf
  exact hf

omit [DecidableEq N] in
theorem Transfer.eq_node {n : N} {qs : List (Fact N (PSNode N))} {x : PSNode N} {p : Pointer N}
    (h : Transfer G n qs (.node x, p)) : x = .node n := by
  cases h <;> rfl

/-! ## Passes that hide nothing -/

/-- In state `s` the node writes the pointer to the entry of the object. -/
def Writes (G : PointerGraph N) (s : State N (PSNode N)) (n : N) (k : PSNode N) (off : Offset)
    (p : Pointer N) : Prop :=
  ∃ qs, Transfer G n qs (.cell k off, p) ∧ ∀ q ∈ qs, s.Admits q

/-- In state `s` the node reads the entry of the object. -/
def Reads (G : PointerGraph N) (s : State N (PSNode N)) (n : N) (k : PSNode N) (off : Offset) :
    Prop :=
  ∃ qs p f, Transfer G n qs f ∧ (.cell k off, p) ∈ qs ∧
    ∀ x q, (.node x, q) ∈ qs → s.Admits (.node x, q)

/-- The pass over `todo` from state `s` hides no pointer: where a node `o` reports nothing although
it writes a pointer that came into the entry of an object only during the pass, the nodes before `o`
in the pass that `o` reaches and that read the entry are processed again. -/
def HidesNothing [Fintype N] (G : PointerGraph N) (opts : PointerAnalysisOptions) (todo : List N)
    (s : State N (PSNode N)) : Prop :=
  ∀ l₁ o l₂, todo = l₁ ++ o :: l₂ → (step G opts o (pass (step G opts) l₁ s).1).2 = false →
    ∀ k off p, Writes G (pass (step G opts) l₁ s).1 o k off p → ¬ s.Admits (.cell k off, p) →
      ∀ m ∈ l₁, G.Reaches o m → Reads G (pass (step G opts) todo s).1 m k off →
        m ∈ queueChanged G (pass (step G opts) todo s).2

theorem shown_of_hidesNothing [Fintype N] (live : N → Prop) {s₀ s : State N (PSNode N)}
    {todo : List N} (hs : s₀.Le s) (h : HidesNothing G opts todo s) :
    Shown (step G opts) (queueChanged G) (Rule G live s₀) G.Reaches State.Admits todo s := by
  have hpass : ∀ l, s₀.Le (pass (step G opts) l s).1 := fun l =>
    hs.trans (pass_rel State.Le.refl (fun _ _ _ => State.Le.trans) (fun n _ s => le_step n s) s)
  rintro l₁ o l₂ ⟨x | ⟨k, off⟩, p⟩ hsplit hreport ⟨ps, ⟨-, qs, hrule, hgiven, -⟩, hps⟩ howned hnot
    m hm hreach ps' g ⟨-, qs', hrule', hgiven', hps''⟩ hmem hend
  · -- only the node itself changes its set
    obtain rfl := hrule.eq_node
    exact absurd (owned_node o p) howned
  · refine h l₁ o l₂ hsplit hreport k off p ⟨qs, hrule, fun q hq => ?_⟩ hnot m hm hreach
      ⟨qs', p, g, hrule', (hps'' _ hmem).1, fun x q hq => ?_⟩
    · obtain hq | hq := hgiven q hq
      · exact State.Admits.mono (hpass l₁) hq
      · obtain ⟨r, hr, rfl⟩ := List.mem_map.1 hq
        exact hps r hr
    · obtain hq | hq := hgiven' _ hq
      · exact State.Admits.mono (hpass todo) hq
      · obtain ⟨⟨m', f⟩, hr, rfl⟩ := List.mem_map.1 hq
        have hx : x = .node m' := (hps'' _ hr).2 x rfl
        subst hx
        exact hend _ hr (owned_node m' q)

/-! ## What executions produce -/

/-- The facts that a configuration shows are known, and its addresses are those of allocations. -/
structure Grounded (G : PointerGraph N) (Known : Fact N (PSNode N) → Prop) (c : Configuration N) :
    Prop where
  value : ∀ n l, c.value n = some l → G.kind l.inst.site = .alloc ∧
    Known (.node (.node n), l.pointer)
  memory : ∀ k l, c.memory k = some l → G.kind k.inst.site = .alloc ∧
    G.kind l.inst.site = .alloc ∧ Known (.cell (.node k.inst.site) ⟨k.offset⟩, l.pointer)

omit [DecidableEq N] in
theorem Grounded.start (Known : Fact N (PSNode N) → Prop) : Grounded G Known .start :=
  ⟨nofun, nofun⟩

omit [DecidableEq N] in
theorem Grounded.operand {Known : Fact N (PSNode N) → Prop} {c : Configuration N}
    (hc : Grounded G Known c) {x : PSNode N} {l : Address N} (h : c.operand x = some l) :
    G.kind l.inst.site = .alloc ∧ Known (.node x, l.pointer) := by
  cases x with
  | node n => exact hc.value n l h
  | nullptr => cases h
  | unknownMemory => cases h
  | invalidated => cases h

omit [DecidableEq N] in
theorem Grounded.mono {Known Known' : Fact N (PSNode N) → Prop} {c : Configuration N}
    (hc : Grounded G Known c) (h : ∀ f, Known f → Known' f) : Grounded G Known' c :=
  ⟨fun n l hl => (hc.value n l hl).imp_right (h _),
    fun k l hl => (hc.memory k l hl).imp_right fun hk => hk.imp_right (h _)⟩

theorem Grounded.setValue {Known : Fact N (PSNode N) → Prop} {c : Configuration N}
    (hc : Grounded G Known c) {n : N} {v : Option (Address N)}
    (hv : ∀ l, v = some l → G.kind l.inst.site = .alloc ∧ Known (.node (.node n), l.pointer)) :
    Grounded G Known (c.setValue n v) where
  value := by
    intro m l hl
    by_cases hm : m = n
    · subst hm
      exact hv l (by simpa [Configuration.setValue] using hl)
    · exact hc.value m l (by simpa [Configuration.setValue, hm] using hl)
  memory := hc.memory

/-- **One node.** What it produces follows by its rules from what was known. -/
theorem Grounded.exec {Known Known' : Fact N (PSNode N) → Prop} {n : N} {c d : Configuration N}
    (hc : Grounded G Known c) (hmono : ∀ f, Known f → Known' f)
    (hrule : ∀ qs f, Transfer G n qs f → (∀ q ∈ qs, Known q) → Known' f) (h : Exec G n c d) :
    Grounded G Known' d := by
  have hc' := hc.mono hmono
  cases h with
  | alloc hkind =>
      have hset := hc'.setValue (n := n) (v := some ⟨⟨n, c.allocated n⟩, 0⟩) (by
        rintro l ⟨rfl⟩
        exact ⟨hkind, hrule [] _ (.alloc hkind) (by simp)⟩)
      exact ⟨hset.value, hset.memory⟩
  | constant hkind ha _ hoff =>
      apply hc'.setValue
      rintro l ⟨rfl⟩
      exact ⟨ha, hrule [] _ (.constant hkind hoff) (by simp)⟩
  | constantNone => exact hc'.setValue (fun l h => by cases h)
  | cast hkind =>
      apply hc'.setValue
      intro l hl
      obtain ⟨halloc, hknown⟩ := hc.operand hl
      exact ⟨halloc, hrule _ _ (.copy (Or.inl hkind)) (by simpa using hknown)⟩
  | phi hkind hmem =>
      apply hc'.setValue
      intro l hl
      obtain ⟨halloc, hknown⟩ := hc.operand hl
      exact ⟨halloc, hrule _ _ (.copy (Or.inr ⟨_, hkind, hmem⟩)) (by simpa using hknown)⟩
  | @gep _ _ l o _ hkind hsource hoff =>
      apply hc'.setValue
      rintro k ⟨rfl⟩
      obtain ⟨halloc, hknown⟩ := hc.operand hsource
      have hgep : Transfer G n [(.node _, l.pointer)] (.node (.node n), ⟨.node l.inst.site, ⟨o⟩⟩) :=
        .gep hkind (hoff.imp_right fun h => congrArg Offset.mk h)
      exact ⟨halloc, hrule _ _ hgep (by simpa using hknown)⟩
  | gepNone => exact hc'.setValue (fun l h => by cases h)
  | load hkind hop =>
      apply hc'.setValue
      intro l hl
      obtain ⟨halloc, hknown⟩ := hc.operand hop
      obtain ⟨-, halloc', hcell⟩ := hc.memory _ l hl
      exact ⟨halloc', hrule _ _ (.load hkind halloc) (by simpa using ⟨hknown, hcell⟩)⟩
  | loadNone => exact hc'.setValue (fun l h => by cases h)
  | @store _ _ a _ m hkind haddress hstored =>
      refine ⟨hc'.value, fun k l hl => ?_⟩
      have hl : m k = some l := hl
      obtain ⟨halloc, hknown⟩ := hc.operand haddress
      -- the cell that is written has the value, the others what they had or nothing
      obtain ⟨hnew, hold⟩ := hstored
      by_cases hk : k = a
      · subst hk
        rw [hnew] at hl
        obtain ⟨halloc', hvalue⟩ := hc.operand hl
        exact ⟨halloc, halloc', hrule _ _ (.store hkind halloc) (by simpa using ⟨hknown, hvalue⟩)⟩
      · obtain h | h := hold k hk
        · exact hc'.memory k l (h ▸ hl)
        · rw [h] at hl
          cases hl
  | storeNone => exact hc'
  | @memcpy _ _ _ src dest bytes _ m hkind hsrc hdest hlen hcopied =>
      refine ⟨hc'.value, fun k l hl => ?_⟩
      have hl : m k = some l := hl
      obtain ⟨ha, hs⟩ := hc.operand hsrc
      obtain ⟨hb, hd⟩ := hc.operand hdest
      obtain ⟨hwrap, -, hall⟩ := hcopied
      -- a cell is lost, kept, or a copy of the cell at the same distance from the source
      obtain h | h | ⟨i, hi, rfl, h⟩ := hall k
      · rw [h] at hl
        cases hl
      · exact hc'.memory k l (h ▸ hl)
      · obtain ⟨-, halloc, hcell⟩ := hc.memory _ l (h ▸ hl)
        have hcopy : Transfer G n [(.node _, src.pointer), (.node _, dest.pointer),
            (.cell (.node src.inst.site) (Offset.shift ⟨src.offset⟩ i), l.pointer)]
            (.cell (.node dest.inst.site) (Offset.shift ⟨dest.offset⟩ i), l.pointer) :=
          .memcpy hkind ha hb (Nat.lt_of_lt_of_le (Nat.add_lt_add_left hi _) hwrap)
            (hlen.imp_right (Nat.lt_of_lt_of_eq hi))
        exact ⟨hb, halloc, hrule _ _ hcopy (by simpa using ⟨hs, hd, hcell⟩)⟩
  | skip => exact hc'

/-- An executed node has no edges but those to its successors. -/
theorem edges_eq_of_exec {n : N} {c d : Configuration N} (h : Exec G n c d) :
    G.edges n = G.successors n := by
  cases h with
  | alloc hkind => simp [PointerGraph.edges, hkind]
  | constant hkind => simp [PointerGraph.edges, hkind]
  | constantNone hkind => simp [PointerGraph.edges, hkind]
  | cast hkind => simp [PointerGraph.edges, hkind]
  | phi hkind => simp [PointerGraph.edges, hkind]
  | gep hkind => simp [PointerGraph.edges, hkind]
  | gepNone hkind => simp [PointerGraph.edges, hkind]
  | load hkind => simp [PointerGraph.edges, hkind]
  | loadNone hkind => simp [PointerGraph.edges, hkind]
  | store hkind => simp [PointerGraph.edges, hkind]
  | storeNone hkind => simp [PointerGraph.edges, hkind]
  | memcpy hkind => simp [PointerGraph.edges, hkind]
  | skip hkind => obtain h | h := hkind <;> simp [PointerGraph.edges, h]

omit [DecidableEq N] in
/-- A live node emits what follows by its rules from facts that are given or that nodes before it
emit. -/
theorem emits_of_transfer {live : N → Prop} {s₀ : State N (PSNode N)} {before : N → N → Prop} {n : N}
    {qs : List (Fact N (PSNode N))} {f : Fact N (PSNode N)} (hn : live n) (h : Transfer G n qs f)
    (hqs : ∀ q ∈ qs, s₀.Admits q ∨ ∃ o, before o n ∧ Emits (Rule G live s₀) before o q) :
    Emits (Rule G live s₀) before n f := by
  obtain ⟨ps, hgiven, hps⟩ := exists_premises hqs
  refine .mk ⟨hn, qs, h, hgiven, fun p hp => ⟨(hps p hp).1, fun x hx => ?_⟩⟩
    (fun p hp => (hps p hp).2.1) fun p hp => (hps p hp).2.2
  obtain ⟨m, x', p'⟩ := p
  obtain ⟨-, -, hemits⟩ := hps _ hp
  subst hx
  cases hemits with
  | mk hrule => exact hrule.2.choose_spec.1.eq_node

/-- **The global nodes.** After them the state admits what they produce. -/
theorem grounded_globals {c : Configuration N} (hknown : AddressesKnown G (afterGlobals G opts))
    (h : ExecAll G G.globals .start c) : Grounded G (afterGlobals G opts).Admits c := by
  let before : N → N → Prop := fun o m => ∃ l₁ l₂, G.globals = l₁ ++ m :: l₂ ∧ o ∈ l₁
  let rule := Rule G (fun _ => True) (.initial G)
  have hstarts : ∀ l c₀ c, ExecAll G l c₀ c → c₀ = .start → ∀ l₂, G.globals = l ++ l₂ →
      Grounded G (fun f => (State.initial G).Admits f ∨ ∃ o ∈ l, Emits rule before o f) c := by
    intro l c₀ c h
    induction h with
    | nil => exact fun hstart _ _ => hstart ▸ Grounded.start _
    | @snoc l n c d e _ hexec ih =>
        intro hstart l₂ hl
        have hl : G.globals = l ++ n :: l₂ := by simpa using hl
        apply (ih hstart _ hl).exec _ _ hexec
        · rintro f (hf | ⟨o, ho, hf⟩)
          · exact Or.inl hf
          · exact Or.inr ⟨o, List.mem_append_left _ ho, hf⟩
        · intro qs f htransfer hqs
          refine Or.inr ⟨n, by simp, emits_of_transfer trivial htransfer fun q hq => ?_⟩
          exact (hqs q hq).imp_right fun ⟨o, ho, hemits⟩ => ⟨o, ⟨l, l₂, hl, ho⟩, hemits⟩
  apply (hstarts _ _ c h rfl [] (by simp)).mono
  rintro f (hf | ⟨o, ho, hf⟩)
  · exact State.Admits.mono (pass_rel State.Le.refl (fun _ _ _ => State.Le.trans)
      (fun n _ s => le_step n s) _) hf
  · refine settled_once (derives _ (State.Le.refl _)) (State.Le.refl _) hknown ?_ ho hf
    -- every global node has one place
    rintro l₁ m l₂ o hl ⟨k₁, k₂, hk, ho⟩
    have hnodup : (l₁ ++ m :: l₂).Nodup := hl ▸ G.nodup_globals
    have hnodup' : (k₁ ++ m :: k₂).Nodup := hk ▸ G.nodup_globals
    obtain rfl | ⟨j, rfl⟩ | ⟨j, rfl⟩ := two_turns (hl.symm.trans hk)
    · exact ho
    · simp [List.nodup_append] at hnodup'
    · simp [List.nodup_append] at hnodup

/-- **The nodes on a path.** What they produce was there after the global nodes, or nodes before them
emit it. -/
theorem grounded_executes {n : N} {c : Configuration N}
    (hknown : AddressesKnown G (afterGlobals G opts)) (h : Executes G n c) :
    (G.Reaches G.root n ∧ G.edges n = G.successors n) ∧
      Grounded G (fun f => (afterGlobals G opts).Admits f ∨ ∃ o, G.Reaches o n ∧
        Emits (Rule G (G.Reaches G.root) (afterGlobals G opts)) G.Reaches o f) c := by
  induction h with
  | root hglobals hexec =>
      refine ⟨⟨.refl, edges_eq_of_exec hexec⟩, ?_⟩
      apply (grounded_globals hknown hglobals).exec (fun f hf => Or.inl hf) _ hexec
      intro qs f htransfer hqs
      exact Or.inr ⟨G.root, .refl, emits_of_transfer .refl htransfer fun q hq => Or.inl (hqs q hq)⟩
  | @edge n m c d _ hedge hexec ih =>
      obtain ⟨⟨hreach, hedges⟩, hgrounded⟩ := ih
      have hstep : G.Edge n m := by
        show m ∈ G.edges n
        rw [hedges]
        exact hedge
      have hreach' : G.Reaches G.root m := hreach.tail hstep
      refine ⟨⟨hreach', edges_eq_of_exec hexec⟩, ?_⟩
      apply hgrounded.exec _ _ hexec
      · rintro f (hf | ⟨o, ho, hf⟩)
        · exact Or.inl hf
        · exact Or.inr ⟨o, ho.tail hstep, hf⟩
      · intro qs f htransfer hqs
        refine Or.inr ⟨m, .refl, emits_of_transfer hreach' htransfer fun q hq => ?_⟩
        exact (hqs q hq).imp_right fun ⟨o, ho, hemits⟩ => ⟨o, ho.tail hstep, hemits⟩

/-! ## The run is sound -/

section Run

variable [Fintype N]

/-- The preprocessing changes no node but GEPs. -/
theorem kind_preprocess {n : N} {k : Kind N} (h : G.kind n = k)
    (hk : ∀ source off, k ≠ .gep source off) : (preprocess G opts).kind n = k := by
  unfold preprocess
  split
  · simp only [preprocessGEPs]
    split
    · next source off hkind => exact absurd (h.symm.trans hkind) (hk source off)
    · exact h
  · exact h

theorem kind_preprocess_gep (opts : PointerAnalysisOptions) {n : N} {source : PSNode N} {off : Offset}
    (h : G.kind n = .gep source off) :
    ∃ off', (preprocess G opts).kind n = .gep source off' ∧ (off' = .unknown ∨ off' = off) := by
  unfold preprocess
  split
  · refine ⟨if G.subgraphs.any fun r => G.inLoop r n then .unknown else off, ?_, ?_⟩
    · simp only [preprocessGEPs, h]
    split
    · exact Or.inl rfl
    · exact Or.inr rfl
  · exact ⟨off, h, Or.inr rfl⟩

/-- What the graph executes, the preprocessed graph executes. -/
theorem exec_preprocess (opts : PointerAnalysisOptions) {n : N} {c d : Configuration N} (h : Exec G n c d) :
    Exec (preprocess G opts) n c d := by
  cases h with
  | alloc hkind => exact .alloc (kind_preprocess hkind (by simp))
  | constant hkind ha hi hoff =>
      exact .constant (kind_preprocess hkind (by simp)) (kind_preprocess ha (by simp)) hi hoff
  | constantNone hkind => exact .constantNone (kind_preprocess hkind (by simp))
  | cast hkind => exact .cast (kind_preprocess hkind (by simp))
  | phi hkind hmem => exact .phi (kind_preprocess hkind (by simp)) hmem
  | gep hkind hsource hoff =>
      obtain ⟨off', hkind', rfl | rfl⟩ := kind_preprocess_gep opts hkind
      · exact .gep hkind' hsource (Or.inl rfl)
      · exact .gep hkind' hsource hoff
  | gepNone hkind hsource =>
      obtain ⟨off', hkind', -⟩ := kind_preprocess_gep opts hkind
      exact .gepNone hkind' hsource
  | load hkind hop => exact .load (kind_preprocess hkind (by simp)) hop
  | loadNone hkind hop => exact .loadNone (kind_preprocess hkind (by simp)) hop
  | store hkind haddress hstored =>
      exact .store (kind_preprocess hkind (by simp)) haddress hstored
  | storeNone hkind haddress => exact .storeNone (kind_preprocess hkind (by simp)) haddress
  | memcpy hkind hsrc hdest hlen hcopied =>
      exact .memcpy (kind_preprocess hkind (by simp)) hsrc hdest hlen hcopied
  | skip hkind =>
      exact .skip (hkind.imp (kind_preprocess · (by simp)) (kind_preprocess · (by simp)))

theorem fields_preprocess (opts : PointerAnalysisOptions) :
    (preprocess G opts).globals = G.globals ∧ (preprocess G opts).root = G.root ∧
      (preprocess G opts).successors = G.successors := by
  unfold preprocess
  split <;> exact ⟨rfl, rfl, rfl⟩

theorem execAll_preprocess (opts : PointerAnalysisOptions) {l : List N} {c d : Configuration N} (h : ExecAll G l c d) :
    ExecAll (preprocess G opts) l c d := by
  induction h with
  | nil => exact .nil
  | snoc _ hexec ih => exact ih.snoc (exec_preprocess opts hexec)

theorem executes_preprocess (opts : PointerAnalysisOptions) {n : N} {c : Configuration N} (h : Executes G n c) :
    Executes (preprocess G opts) n c := by
  obtain ⟨hglobals, hroot, hsuccessors⟩ := fields_preprocess (G := G) opts
  induction h with
  | root hall hexec =>
      have hall' := execAll_preprocess opts hall
      have hexec' := exec_preprocess opts hexec
      rw [← hglobals] at hall'
      rw [← hroot] at hexec' ⊢
      exact .root hall' hexec'
  | edge _ hedge hexec ih =>
      rw [← hsuccessors] at hedge
      exact ih.edge hedge (exec_preprocess opts hexec)

theorem mem_queueChanged {changed : List N} {n : N} :
    n ∈ queueChanged G changed ↔ ∃ m ∈ changed, G.Reaches m n := by
  unfold queueChanged
  split
  · simp
  · exact G.mem_getNodes

/-- No pass of the run hides a pointer. -/
def NothingHidden (G : PointerGraph N) (opts : PointerAnalysisOptions) (fuel : Nat) : Prop :=
  EachPass (step G opts) (queueChanged G) (HidesNothing G opts) fuel (G.getNodes [G.root])
    (afterGlobals G opts)

/-- What the nodes on paths emit is admitted when the run ends. -/
theorem admits_of_emits {fuel : Nat} {t : State N (PSNode N)} (hrun : runFrom G opts fuel = some t)
    (hknown : AddressesKnown G t) (hhidden : NothingHidden G opts fuel) {n : N}
    {f : Fact N (PSNode N)}
    (h : Emits (Rule G (G.Reaches G.root) (afterGlobals G opts)) G.Reaches n f) : t.Admits f := by
  have hinitial : (State.initial G).Le (afterGlobals G opts) :=
    pass_rel State.Le.refl (fun _ _ _ => State.Le.trans) (fun n _ s => le_step n s) _
  have hshown := hhidden.imp (I := (afterGlobals G opts).Le) (fun n s hs => hs.trans (le_step n s))
    (fun todo s hs hpass => shown_of_hidesNothing (G.Reaches G.root) hs hpass)
    (State.Le.refl _)
  refine settled_rounds (derives _ hinitial) (C := fun _ => True) (fun _ _ _ => trivial) ?_ ?_
    trivial (State.Le.refl _) hknown hshown ?_ hrun n f h
  · intro todo s _ o m ho hreach
    obtain ⟨k, hk, hk'⟩ := mem_queueChanged.1 ho
    exact mem_queueChanged.2 ⟨k, hk, hk'.trans hreach⟩
  · exact fun todo s _ m hm => mem_queueChanged.2 ⟨m, hm, .refl⟩
  · -- only nodes that the root reaches emit facts
    intro m f hf hm
    cases hf with
    | mk hrule => exact absurd (G.mem_getNodes.2 ⟨G.root, List.mem_singleton_self _, hrule.1⟩) hm

/-- The values of the nodes and the contents of the memory are admitted. -/
def Covered (s : State N (PSNode N)) (c : Configuration N) : Prop :=
  (∀ n l, c.value n = some l → (s.pts (.node n)).Admits l.pointer) ∧
    ∀ k l, c.memory k = some l → s.Admits (.cell (.node k.inst.site) ⟨k.offset⟩, l.pointer)

/-- **The flow-insensitive analysis is sound** when no pass of the run hides a pointer. -/
theorem run_sound {fuel : Nat} {t : State N (PSNode N)} (hrun : run G opts fuel = some t)
    (hknown : AddressesKnown (preprocess G opts) t)
    (hhidden : NothingHidden (preprocess G opts) opts fuel) {n : N} {c : Configuration N}
    (h : Executes G n c) : Covered t c := by
  have hle : (afterGlobals (preprocess G opts) opts).Le t :=
    rounds_invariant (I := (afterGlobals (preprocess G opts) opts).Le)
      (fun n s hs => hs.trans (le_step n s)) (State.Le.refl _) hrun
  obtain ⟨-, hgrounded⟩ := grounded_executes (hknown.before hle) (executes_preprocess opts h)
  have hadmits : ∀ f, (afterGlobals (preprocess G opts) opts).Admits f ∨
      (∃ o, (preprocess G opts).Reaches o n ∧ Emits (Rule (preprocess G opts)
        ((preprocess G opts).Reaches (preprocess G opts).root)
        (afterGlobals (preprocess G opts) opts)) (preprocess G opts).Reaches o f) → t.Admits f := by
    rintro f (hf | ⟨o, -, hf⟩)
    · exact State.Admits.mono hle hf
    · exact admits_of_emits hrun hknown hhidden hf
  have hcovered := hgrounded.mono hadmits
  exact ⟨fun m l hl => (hcovered.value m l hl).2, fun k l hl => (hcovered.memory k l hl).2.2⟩

/-- Stores and `memcpy`. -/
def writesMemory (G : PointerGraph N) (n : N) : Bool :=
  match G.kind n with
  | .store _ _ | .memcpy _ _ _ => true
  | _ => false

/-- Loads and `memcpy`. -/
def readsMemory (G : PointerGraph N) (n : N) : Bool :=
  match G.kind n with
  | .load _ | .memcpy _ _ _ => true
  | _ => false

omit [Fintype N] [DecidableEq N] in
theorem Transfer.writesMemory {n : N} {qs : List (Fact N (PSNode N))} {k : PSNode N} {off : Offset}
    {p : Pointer N} (h : Transfer G n qs (.cell k off, p)) : writesMemory G n = true := by
  cases h with
  | store hkind => simp [FI.writesMemory, hkind]
  | memcpy hkind => simp [FI.writesMemory, hkind]

omit [Fintype N] [DecidableEq N] in
theorem Transfer.readsMemory {n : N} {qs : List (Fact N (PSNode N))} {f : Fact N (PSNode N)}
    {k : PSNode N} {off : Offset} {p : Pointer N} (h : Transfer G n qs f)
    (hmem : (.cell k off, p) ∈ qs) : readsMemory G n = true := by
  cases h with
  | alloc hkind => cases hmem
  | constant hkind => cases hmem
  | copy hkind => simp at hmem
  | gep hkind => simp at hmem
  | load hkind => simp [FI.readsMemory, hkind]
  | store hkind => simp at hmem
  | memcpy hkind => simp [FI.readsMemory, hkind]

/-- A pass in which the writers have their turns before the readers hides nothing. -/
theorem hidesNothing_of_pairwise {todo : List N} {s : State N (PSNode N)}
    (h : todo.Pairwise fun m o => readsMemory G m = true → writesMemory G o = false) :
    HidesNothing G opts todo s := by
  rintro l₁ o l₂ rfl - k off p ⟨qs, hwrite, -⟩ - m hm - ⟨qs', p', f, hread, hmem, -⟩
  have hpair := (List.pairwise_append.1 h).2.2 m hm o List.mem_cons_self
  have hreads : readsMemory G m = true := hread.readsMemory hmem
  rw [hwrite.writesMemory] at hpair
  exact absurd (hpair hreads) (by simp)

omit [Fintype N] [DecidableEq N] in
/-- The addresses are known when there is one address, and it is known. -/
theorem addressesKnown_of_kinds {s : State N (PSNode N)} (value address : PSNode N)
    (hkinds : ∀ n, writesMemory G n = true → G.kind n = .store value address)
    (h : Pointer.unknownPointer ∉ s.pts address) : AddressesKnown G s := by
  intro n
  refine ⟨fun v a hkind => ?_, fun src dest len hkind => ?_⟩
  · have hstore := hkinds n (by simp [FI.writesMemory, hkind])
    rw [hkind, Kind.store.injEq] at hstore
    exact hstore.2 ▸ h
  · have hstore := hkinds n (by simp [FI.writesMemory, hkind])
    rw [hkind] at hstore
    cases hstore

end Run

/-- `m = alloc; t = alloc; *m = t; x = *m`. -/
def storeThenLoad : PointerGraph (Fin 4) where
  kind := ![.alloc, .alloc, .store (.node 1) (.node 0), .load (.node 0)]
  successors := ![[1], [2], [3], []]
  predecessors := ![[], [0], [1], [2]]
  callees := fun _ => []
  returnSites := fun _ => []
  size := ![8, 8, 0, 0]
  isHeap := fun _ => false
  isGlobal := fun _ => false
  zeroInitialized := fun _ => false
  subgraphs := [0]
  parent := fun _ => some 0
  globals := []
  root := 0
  mem_predecessors := by decide
  nodup_globals := List.nodup_nil

theorem storeInLoop_globals : ([] : List (Fin 5)).Nodup := List.nodup_nil

/-- `m = alloc; t = alloc;` then `*m = t` or `do x = *m; *m = t while ?`. -/
def storeInLoop : PointerGraph (Fin 5) where
  kind := ![.alloc, .alloc, .load (.node 0), .store (.node 1) (.node 0),
    .store (.node 1) (.node 0)]
  successors := ![[1], [2, 3], [4], [], [2]]
  predecessors := ![[], [0], [1, 4], [1], [2]]
  callees := fun _ => []
  returnSites := fun _ => []
  size := ![8, 8, 0, 0, 0]
  isHeap := fun _ => false
  isGlobal := fun _ => false
  zeroInitialized := fun _ => false
  subgraphs := [0]
  parent := fun _ => some 0
  globals := []
  root := 0
  mem_predecessors := by decide
  nodup_globals := storeInLoop_globals

/-- The run ends and `x` points nowhere: the store in the loop repeats what the other store wrote, so
the load is not processed again. The path that goes round the loop lets `x` point to `t`. -/
theorem hidden_pointer : ∃ fuel t n c,
    run storeInLoop {} fuel = some t ∧ AddressesKnown (preprocess storeInLoop {}) t ∧
      Executes storeInLoop n c ∧ ¬ Covered t c := by
  obtain ⟨t, ht⟩ := Option.isSome_iff_exists.1 (show (run storeInLoop {} 2).isSome = true by decide)
  have haddress : (run storeInLoop {} 2).map (fun t => (t.pts (.node 0)).pointers) =
      some [⟨.node 0, 0⟩] := by decide
  have hload : (run storeInLoop {} 2).map (fun t => (t.pts (.node 2)).pointers) = some [] := by
    decide
  rw [ht, Option.map_some, Option.some.injEq] at haddress hload
  have halloc₀ : Executes storeInLoop 0 _ := .root .nil (.alloc rfl)
  have halloc₁ : Executes storeInLoop 1 _ := halloc₀.edge (by decide) (.alloc rfl)
  have hfirst : Executes storeInLoop 2 _ := halloc₁.edge (by decide) (.load rfl rfl)
  have hstore : Executes storeInLoop 4 _ :=
    hfirst.edge (by decide) (.store rfl rfl (Configuration.stored_update _ _ _))
  have hsecond : Executes storeInLoop 2 _ := hstore.edge (by decide) (.load rfl rfl)
  refine ⟨2, t, 2, _, ht, ?_, hsecond, ?_⟩
  · apply addressesKnown_of_kinds (.node 1) (.node 0) (by decide)
    intro hmem
    have hmem : Pointer.unknownPointer ∈ (t.pts (.node 0)).pointers := hmem
    rw [haddress] at hmem
    simp [Pointer.unknownPointer] at hmem
  · rintro ⟨hvalues, -⟩
    have hadmits := hvalues 2 ⟨⟨1, 0⟩, 0⟩ (by decide)
    exact hadmits.not_empty (by rw [PointsToSet.isEmpty, hload]; rfl)

/-- `x` points to `t` in the execution, and where the run ends. -/
theorem run_sound_storeThenLoad : ∃ t c, run storeThenLoad {} 2 = some t ∧
    Executes storeThenLoad 3 c ∧ c.value 3 = some ⟨⟨1, 0⟩, 0⟩ ∧ Covered t c := by
  obtain ⟨t, ht⟩ :=
    Option.isSome_iff_exists.1 (show (run storeThenLoad {} 2).isSome = true by decide)
  have haddress : (run storeThenLoad {} 2).map (fun t => (t.pts (.node 0)).pointers) =
      some [⟨.node 0, 0⟩] := by decide
  rw [ht, Option.map_some, Option.some.injEq] at haddress
  have hknown : AddressesKnown (preprocess storeThenLoad {}) t := by
    apply addressesKnown_of_kinds (.node 1) (.node 0) (by decide)
    intro hmem
    have hmem : Pointer.unknownPointer ∈ (t.pts (.node 0)).pointers := hmem
    rw [haddress] at hmem
    simp [Pointer.unknownPointer] at hmem
  -- the store comes before the load in both passes
  have hhidden : NothingHidden (preprocess storeThenLoad {}) {} 2 := by
    refine ⟨hidesNothing_of_pairwise (by decide), ?_⟩
    split
    · trivial
    · next n rest hn =>
        have hlist : queueChanged (preprocess storeThenLoad {}) (pass (step (preprocess storeThenLoad {}) {})
          ((preprocess storeThenLoad {}).getNodes [(preprocess storeThenLoad {}).root])
          (afterGlobals (preprocess storeThenLoad {}) {})).2 = [2, 3] := by decide
        rw [hlist] at hn
        obtain ⟨rfl, rfl⟩ := List.cons.inj hn
        refine ⟨hidesNothing_of_pairwise (by decide), ?_⟩
        split <;> trivial
  have halloc₀ : Executes storeThenLoad 0 _ := .root .nil (.alloc rfl)
  have halloc₁ : Executes storeThenLoad 1 _ := halloc₀.edge (by decide) (.alloc rfl)
  have hstore : Executes storeThenLoad 2 _ :=
    halloc₁.edge (by decide) (.store rfl rfl (Configuration.stored_update _ _ _))
  have hload : Executes storeThenLoad 3 _ := hstore.edge (by decide) (.load rfl rfl)
  exact ⟨t, _, ht, hload, by decide, run_sound ht hknown hhidden hload⟩

end FI

end Cape.PointerAnalysis
