import Cape.Library.FinLiterals
import Cape.Library.FinishingOrder
import Cape.Library.TruncatedSearch
import Cape.ThreadRegions.CriticalSectionsBuilder

/-!
# What a critical section collects

The search of `buildCriticalSection` sees what the depth-first search sees that stops entering when
all unlocks of the lock were seen (`buildCriticalSection_nodes`).

A critical section should hold the nodes that the lock reaches without passing one of its unlocks.
Whether it does depends on the order in which the depth-first search from the lock comes to the
unlocks: `InStep` is the condition.
-/

set_option autoImplicit false

namespace Cape.ThreadRegions

open Cape.Library

variable {Node CallInst : Type} [DecidableEq Node] {graph : ThreadFlowGraph Node}

namespace CriticalSectionsBuilder

/-- All unlocks of the lock were seen. -/
def AllSeen (lock : LockNode graph) (seen : List Node) : Prop :=
  ∀ unlock ∈ lock.correspondingUnlocks, unlock ∈ seen

instance (lock : LockNode graph) : DecidablePred (AllSeen lock) := fun seen =>
  inferInstanceAs (Decidable (∀ unlock ∈ lock.correspondingUnlocks, unlock ∈ seen))

omit [DecidableEq Node] in
theorem allSeen_cons (lock : LockNode graph) (node : Node) (seen : List Node)
    (h : AllSeen lock seen) : AllSeen lock (node :: seen) :=
  fun unlock hunlock => List.mem_cons_of_mem _ (h unlock hunlock)

/-- The builder has seen these nodes. -/
structure HasSeen (lock : LockNode graph) (builder : CriticalSectionsBuilder Node CallInst)
    (seen : List Node) : Prop where
  mem : ∀ x, x ∈ seen ↔ x ∈ builder.visited ∨ x ∈ builder.examined
  unlocks : ∀ x, x ∈ builder.currentUnlocks ↔ x ∈ lock.correspondingUnlocks ∧ x ∉ seen

section Search

variable {lock : LockNode graph} {builder : CriticalSectionsBuilder Node CallInst}
  {seen : List Node} {node : Node}

theorem HasSeen.isEmpty_iff (h : HasSeen lock builder seen) :
    builder.currentUnlocks.isEmpty = true ↔ AllSeen lock seen := by
  rw [List.isEmpty_iff, List.eq_nil_iff_forall_not_mem]
  constructor
  · intro hnil unlock hunlock
    by_contra hnot
    exact hnil unlock ((h.unlocks unlock).2 ⟨hunlock, hnot⟩)
  · intro hall unlock hmem
    obtain ⟨hunlock, hnot⟩ := (h.unlocks unlock).1 hmem
    exact hnot (hall unlock hunlock)

theorem HasSeen.preVisit (h : HasSeen lock builder seen) :
    HasSeen lock (builder.preVisit graph node) (node :: seen) := by
  constructor
  · intro x
    simp only [CriticalSectionsBuilder.preVisit, List.mem_cons, List.mem_insert_iff, h.mem]
    tauto
  · intro x
    simp only [CriticalSectionsBuilder.preVisit, List.mem_cons, not_or]
    split
    · rw [List.mem_filter, h.unlocks]
      simp only [decide_eq_true_eq]
      tauto
    · next htype =>
        rw [h.unlocks]
        constructor
        · rintro ⟨hunlock, hnot⟩
          exact ⟨hunlock, fun heq => htype (heq ▸ lock.unlock_type x hunlock), hnot⟩
        · exact fun ⟨hunlock, _, hnot⟩ => ⟨hunlock, hnot⟩

theorem HasSeen.postVisit (h : HasSeen lock builder seen) (hnode : node ∈ seen) :
    HasSeen lock (builder.postVisit node) seen := by
  refine ⟨fun x => ?_, h.unlocks⟩
  simp only [CriticalSectionsBuilder.postVisit, List.mem_filter, List.mem_insert_iff,
    decide_eq_true_eq]
  by_cases heq : x = node
  · subst heq
    simp [hnode]
  · simp [heq, h.mem x]

variable [Fintype Node]

/-- A visit sees what the search that stops sees from the node. -/
theorem visitNode_hasSeen : ∀ (depth : Nat) (node : Node)
    (builder : CriticalSectionsBuilder Node CallInst) (seen : List Node),
    HasSeen lock builder seen → node ∉ seen →
    (Finset.univ.filter (· ∉ seen)).card ≤ depth →
    ∃ builder', visitNode graph depth node builder = some builder' ∧
      HasSeen lock builder' (dfsUntil graph.nodeIterator (AllSeen lock) depth [node] seen) ∧
      builder'.criticalSections = builder.criticalSections ∧
      ∀ x, x ∈ builder'.visited ↔ x ∈ builder.visited := by
  intro depth
  induction depth with
  | zero =>
      intro node builder seen _ hnot hcard
      have hmem : node ∈ Finset.univ.filter (· ∉ seen) := by simpa using hnot
      rw [Finset.card_eq_zero.1 (Nat.le_zero.1 hcard)] at hmem
      exact absurd hmem (Finset.notMem_empty _)
  | succ depth ih =>
      -- the loop over the successors
      have hloop : ∀ (successors : List Node) (builder : CriticalSectionsBuilder Node CallInst)
          (seen : List Node), HasSeen lock builder seen →
          (Finset.univ.filter (· ∉ seen)).card ≤ depth →
          ∃ builder', successors.foldlM (fun builder successor =>
              if successor ∉ builder.visited ∧ successor ∉ builder.examined then
                visitNode graph depth successor builder
              else some builder) builder = some builder' ∧
            HasSeen lock builder'
              (dfsUntil graph.nodeIterator (AllSeen lock) depth successors seen) ∧
            builder'.criticalSections = builder.criticalSections ∧
            ∀ x, x ∈ builder'.visited ↔ x ∈ builder.visited := by
        intro successors
        induction successors with
        | nil =>
            intro builder seen h _
            refine ⟨builder, rfl, ?_, rfl, fun _ => Iff.rfl⟩
            cases depth with
            | zero => exact h
            | succ depth => exact h
        | cons successor successors ihloop =>
            intro builder seen h hcard
            have hone : ∃ builder₁, (if successor ∉ builder.visited ∧ successor ∉ builder.examined
                then visitNode graph depth successor builder else some builder) = some builder₁ ∧
                HasSeen lock builder₁
                  (dfsUntil graph.nodeIterator (AllSeen lock) depth [successor] seen) ∧
                builder₁.criticalSections = builder.criticalSections ∧
                ∀ x, x ∈ builder₁.visited ↔ x ∈ builder.visited := by
              by_cases hmem : successor ∈ seen
              · rw [if_neg (by rw [← not_or, ← h.mem, not_not]; exact hmem)]
                refine ⟨builder, rfl, ?_, rfl, fun _ => Iff.rfl⟩
                cases depth with
                | zero => exact h
                | succ depth =>
                    rw [dfsUntil_cons, if_pos hmem]
                    exact h
              · rw [if_pos (by rw [← not_or, ← h.mem]; exact hmem)]
                exact ih successor builder seen h hmem hcard
            obtain ⟨builder₁, hstep, hseen₁, hsections₁, hvisited₁⟩ := hone
            obtain ⟨builder', hrun, hseen', hsections', hvisited'⟩ := ihloop builder₁ _ hseen₁
              (le_trans (card_unseen_mono (suffix_dfsUntil _ _ _).subset) hcard)
            refine ⟨builder', ?_, ?_, hsections'.trans hsections₁,
              fun x => (hvisited' x).trans (hvisited₁ x)⟩
            · rw [List.foldlM_cons, hstep]
              exact hrun
            · cases depth with
              | zero => exact hseen'
              | succ depth => exact hseen'
      intro node builder seen h hnot hcard
      have hpre : HasSeen lock (builder.preVisit graph node) (node :: seen) := h.preVisit
      have hcard' : (Finset.univ.filter (· ∉ node :: seen)).card ≤ depth :=
        Nat.lt_succ_iff.1 (lt_of_lt_of_le (card_unseen_cons (Finset.mem_univ node) hnot) hcard)
      have hvisited : node ∉ builder.visited := fun hmem => hnot ((h.mem node).2 (Or.inl hmem))
      have hpost : ∀ x, (x = node ∨ x ∈ builder.visited) ∧ x ≠ node ↔ x ∈ builder.visited := by
        intro x
        constructor
        · exact fun ⟨hx, hne⟩ => hx.resolve_left hne
        · exact fun hx => ⟨Or.inr hx, fun heq => hvisited (heq ▸ hx)⟩
      rw [dfsUntil_cons, if_neg hnot, dfsUntil_nil]
      by_cases hall : AllSeen lock (node :: seen)
      · rw [if_pos hall]
        refine ⟨(builder.preVisit graph node).postVisit node, ?_,
          hpre.postVisit List.mem_cons_self, rfl, fun x => ?_⟩
        · simp [visitNode, visit, hpre.isEmpty_iff.2 hall]
        · simp only [CriticalSectionsBuilder.postVisit, CriticalSectionsBuilder.preVisit,
            List.mem_filter, List.mem_insert_iff, decide_eq_true_eq, hpost]
      · rw [if_neg hall]
        obtain ⟨builder₁, hrun, hseen₁, hsections₁, hvisited₁⟩ :=
          hloop (graph.nodeIterator node) _ _ hpre hcard'
        refine ⟨builder₁.postVisit node, ?_, ?_, hsections₁, fun x => ?_⟩
        · simp only [visitNode, visit, if_neg (mt hpre.isEmpty_iff.1 hall), hrun]
          rfl
        · apply HasSeen.postVisit
          · exact hseen₁
          · exact (suffix_dfsUntil _ _ _).subset List.mem_cons_self
        · simp only [CriticalSectionsBuilder.postVisit, List.mem_filter, decide_eq_true_eq,
            hvisited₁, CriticalSectionsBuilder.preVisit, List.mem_insert_iff, hpost]

end Search

section Build

variable [Fintype Node] [DecidableEq CallInst]

/-- Nothing is left of another search, and the call instruction of the lock has no section yet. -/
structure Ready (callInstruction : Node → CallInst) (lock : LockNode graph)
    (builder : CriticalSectionsBuilder Node CallInst) : Prop where
  visited : builder.visited = []
  examined : builder.examined = []
  unbuilt : builder.criticalSections.lookup (callInstruction lock.node) = none

/-- What the search from the lock sees. -/
def seenFrom (lock : LockNode graph) : List Node :=
  dfsUntil graph.nodeIterator (AllSeen lock) (Fintype.card Node + 1) [lock.node] []

/-- The section of a lock has what the search from it sees, and the builder is left as it was
found. -/
theorem buildCriticalSection_nodes (callInstruction : Node → CallInst) (lock : LockNode graph)
    {builder : CriticalSectionsBuilder Node CallInst} (h : Ready callInstruction lock builder) :
    ∃ changed builder' criticalSection,
      buildCriticalSection callInstruction lock builder = some (changed, builder') ∧
      builder'.visited = [] ∧ builder'.examined = [] ∧
      builder'.criticalSections.lookup (callInstruction lock.node) = some criticalSection ∧
      ∀ x, x ∈ criticalSection.nodes ↔ x ≠ lock.node ∧ x ∈ seenFrom lock := by
  obtain ⟨builder₁, hrun, hseen, hsections, hvisited⟩ := visitNode_hasSeen (Fintype.card Node + 1)
    lock.node { builder with
      criticalSections :=
        (callInstruction lock.node, { lock := lock.node }) :: builder.criticalSections
      currentUnlocks := lock.correspondingUnlocks } []
    (show HasSeen lock _ [] from ⟨fun x => by simp [h.visited, h.examined], fun x => by simp⟩)
    (by simp)
    (le_trans (Finset.card_filter_le _ _) (Nat.le_succ _))
  -- every node that was entered was left again
  have hnil : builder₁.visited = [] := by
    rw [List.eq_nil_iff_forall_not_mem]
    intro x
    rw [hvisited, h.visited]
    exact List.not_mem_nil
  have hmem : ∀ x, x ∈ seenFrom lock ↔ x ∈ builder₁.examined := by
    intro x
    rw [seenFrom, hseen.mem, hnil]
    simp
  have hlookup : builder₁.criticalSections.lookup (callInstruction lock.node) =
      some { lock := lock.node } := by
    rw [hsections]
    simp
  -- the set that is inserted is given a name, so that the steps below do not compute it
  obtain ⟨inserted, hinserted⟩ : ∃ inserted, inserted =
      CriticalSection.insertNodes { lock := lock.node } builder₁.examined := ⟨_, rfl⟩
  refine ⟨inserted.1, { builder₁ with
      criticalSections := modifySection builder₁.criticalSections (callInstruction lock.node)
        inserted.2
      examined := [] }, inserted.2, ?_, hnil, rfl, ?_, fun x => ?_⟩
  · simp only [buildCriticalSection, h.unbuilt, hrun, populateCriticalSection, hlookup,
      Option.bind_eq_bind, Option.bind_some, hinserted]
    rfl
  · simp only [hsections, modifySection, List.map_cons, if_true, List.lookup_cons, beq_self_eq_true]
  · rw [hmem, hinserted]
    simp only [CriticalSection.insertNodes, List.mem_filter, List.mem_union_iff, List.not_mem_nil,
      false_or, decide_eq_true_eq]
    exact and_comm

end Build

/-! ## Sections -/

/-- The lock reaches the node on a path with no unlock before the node. -/
def InSection (lock : LockNode graph) (node : Node) : Prop :=
  node ≠ lock.node ∧ Relation.ReflTransGen
    (fun x y => x ∉ lock.correspondingUnlocks ∧ graph.Edge x y) lock.node node

variable [Fintype Node]

variable (graph) in
/-- What the node reaches, in the order in which a depth-first search from it comes there. -/
def depthFirstOrder (node : Node) : List Node :=
  (dfs graph.nodeIterator (Fintype.card Node + 1) [node] []).reverse

/-- The search from the lock does not come to `y` before it comes to `x`. -/
def NoLater (lock : LockNode graph) (x y : Node) : Prop :=
  x = y ∨ Precedes (depthFirstOrder graph lock.node) x y

/-- The search from the lock stops in time and not too early.

- A lock without unlocks leads nowhere else.
- Where an unlock is not the last one that the search comes to, it goes to nodes of the section.
- A node of the section that the search does not come to before the last unlock is a successor of a
node that the search is in then: one that comes before and that goes to the unlock through nodes
that come after itself. -/
structure StopsInTime (lock : LockNode graph) : Prop where
  none : lock.correspondingUnlocks = [] → ∀ x, graph.Edge lock.node x → x = lock.node
  passed : ∀ unlock ∈ lock.correspondingUnlocks, graph.Reaches lock.node unlock →
    (∃ other ∈ lock.correspondingUnlocks, ¬ NoLater lock other unlock) →
      ∀ x, graph.Edge unlock x → x = lock.node ∨ InSection lock x
  last : ∀ unlock ∈ lock.correspondingUnlocks, graph.Reaches lock.node unlock →
    (∀ other ∈ lock.correspondingUnlocks, NoLater lock other unlock) →
      ∀ x, InSection lock x → NoLater lock x unlock ∨
        ∃ caller, Precedes (depthFirstOrder graph lock.node) caller unlock ∧ graph.Edge caller x ∧
          Relation.ReflTransGen (fun y z => graph.Edge y z ∧ ¬ NoLater lock z caller) caller unlock

section Order

variable {lock : LockNode graph} {x y : Node} {rest : List Node}

variable (lock) in
/-- The search from the lock, the last one first. -/
def searched : List Node := dfs graph.nodeIterator (Fintype.card Node + 1) [lock.node] []

variable (Node) in
omit [DecidableEq Node] in
theorem card_unseen_lt [DecidableEq Node] :
    (Finset.univ.filter (· ∉ ([] : List Node))).card < Fintype.card Node + 1 :=
  Nat.lt_succ_of_le (Finset.card_filter_le _ _)

variable (lock) in
theorem nodup_searched : (searched lock).Nodup := nodup_dfs _ _ _ List.nodup_nil

theorem mem_searched : x ∈ searched lock ↔ graph.Reaches lock.node x := by
  rw [searched, mem_dfs (fun a _ => Finset.mem_univ a) (card_unseen_lt Node)]
  constructor
  · rintro (h | ⟨a, ha, _, hpath⟩)
    · exact absurd h List.not_mem_nil
    · exact List.mem_singleton.1 ha ▸ Relation.ReflTransGen.mono (fun _ _ h => h.1) _ _ hpath
  · intro h
    exact Or.inr ⟨lock.node, List.mem_singleton_self _, List.not_mem_nil,
      Relation.ReflTransGen.mono (fun _ _ h => ⟨h, List.not_mem_nil⟩) _ _ h⟩

theorem precedes_iff (h : y :: rest <:+ searched lock) :
    Precedes (depthFirstOrder graph lock.node) x y ↔ x ∈ rest :=
  precedes_reverse_iff (nodup_searched lock) h

theorem noLater_iff (h : y :: rest <:+ searched lock) : NoLater lock x y ↔ x ∈ y :: rest := by
  rw [NoLater, List.mem_cons, precedes_iff h]

theorem NoLater.reaches (h : NoLater lock x y) (hy : graph.Reaches lock.node y) :
    graph.Reaches lock.node x := by
  obtain ⟨later, rest, hsplit⟩ := List.append_of_mem (mem_searched.2 hy)
  have hsuffix : y :: rest <:+ searched lock := ⟨later, hsplit.symm⟩
  exact mem_searched.1 (hsuffix.subset ((noLater_iff hsuffix).1 h))

/-- The search is in `x` when it comes to `y`. -/
theorem leads_iff_path (h : y :: rest <:+ searched lock) (hx : x ∈ rest) :
    Leads graph.nodeIterator rest x y ↔
      Relation.ReflTransGen (fun u v => graph.Edge u v ∧ ¬ NoLater lock v x) x y := by
  obtain ⟨later, earlier, hsplit⟩ := List.append_of_mem hx
  have hrest : rest <:+ searched lock := (List.suffix_cons y rest).trans h
  have hsuffix : x :: earlier <:+ rest := ⟨later, hsplit.symm⟩
  have hstep : Unseen graph.nodeIterator (x :: earlier) =
      fun u v => graph.Edge u v ∧ ¬ NoLater lock v x := by
    funext u v
    rw [noLater_iff (hsuffix.trans hrest)]
    rfl
  rw [leads_iff ((nodup_searched lock).sublist hrest.sublist) hsuffix, hstep]

end Order

section Exact

variable {lock : LockNode graph} {x y : Node}

omit [Fintype Node] in
/-- A step from a node of the section that is no unlock. -/
theorem InSection.step (hx : x = lock.node ∨ InSection lock x)
    (hnot : x ∉ lock.correspondingUnlocks) (hedge : graph.Edge x y) :
    y = lock.node ∨ InSection lock y := by
  by_cases heq : y = lock.node
  · exact Or.inl heq
  · rcases hx with rfl | hx
    · exact Or.inr ⟨heq, .single ⟨hnot, hedge⟩⟩
    · exact Or.inr ⟨heq, hx.2.tail ⟨hnot, hedge⟩⟩

omit [DecidableEq Node] [Fintype Node] in
theorem InSection.reaches (h : InSection lock x) : graph.Reaches lock.node x :=
  Relation.ReflTransGen.mono (fun _ _ h => h.2) _ _ h.2

/-- The search comes to nodes of the section as long as the unlocks that it passes go to such
nodes. -/
theorem inSection_of_suffix : ∀ seen : List Node, seen <:+ searched lock →
    (∀ a ∈ seen.tail, a ∈ lock.correspondingUnlocks →
      ∀ x, graph.Edge a x → x = lock.node ∨ InSection lock x) →
    ∀ x ∈ seen, x = lock.node ∨ InSection lock x
  | [], _, _ => fun _ hx => absurd hx List.not_mem_nil
  | y :: rest, hsuffix, hpassed => by
      have ih := inSection_of_suffix rest ((List.suffix_cons y rest).trans hsuffix)
        fun a ha => hpassed a (List.mem_of_mem_tail ha)
      intro x hx
      rcases List.mem_cons.1 hx with rfl | hx
      · rcases exists_caller _ _ _ List.nodup_nil hsuffix List.not_mem_nil with
          hroot | ⟨a, ha, hedge⟩
        · exact Or.inl (List.mem_singleton.1 hroot)
        · by_cases hunlock : a ∈ lock.correspondingUnlocks
          · exact hpassed a ha hunlock x hedge
          · exact InSection.step (ih a ha) hunlock hedge
      · exact ih x hx

/-- The three ways in which the search from a lock ends: it is over at once, it goes on to the end,
or it stops at the last unlock. -/
theorem seenFrom_cases (lock : LockNode graph) :
    (lock.correspondingUnlocks = [] ∧ ∀ x, x ∈ seenFrom lock ↔ x = lock.node) ∨
    (∃ unlock ∈ lock.correspondingUnlocks, ¬ graph.Reaches lock.node unlock) ∧
      seenFrom lock = searched lock ∨
    ∃ unlock pre, unlock ∈ lock.correspondingUnlocks ∧
      StopsAt graph.nodeIterator (AllSeen lock) [lock.node] [] (searched lock) (seenFrom lock)
        pre unlock := by
  by_cases hnil : AllSeen lock []
  · refine Or.inl ⟨List.eq_nil_iff_forall_not_mem.2 fun x hx => List.not_mem_nil (hnil x hx), ?_⟩
    intro x
    rw [seenFrom, mem_dfsUntil_of_stop (allSeen_cons lock) _ _ _ hnil]
    simp
  · by_cases hall : AllSeen lock (searched lock)
    · obtain ⟨w, pre, hstops⟩ := exists_stopsAt (allSeen_cons lock)
        (fun a _ => Finset.mem_univ a) _ [lock.node] [] (card_unseen_lt Node) hnil hall
      refine Or.inr (Or.inr ⟨w, pre, ?_, hstops⟩)
      by_contra hnot
      apply hstops.before
      intro unlock hunlock
      rcases List.mem_cons.1 (hstops.meets unlock hunlock) with rfl | hmem
      · exact absurd hunlock hnot
      · exact hmem
    · refine Or.inr (Or.inl ⟨?_, dfsUntil_eq_dfs (allSeen_cons lock) _ _ _ hall⟩)
      by_contra hnone
      exact hall fun unlock hunlock => mem_searched.2 (by
        by_contra hnot
        exact hnone ⟨unlock, hunlock, hnot⟩)

/-- A search that stops in time sees the section. -/
theorem StopsInTime.inSection_iff (h : StopsInTime lock) :
    InSection lock x ↔ x ≠ lock.node ∧ x ∈ seenFrom lock := by
  rcases seenFrom_cases lock with ⟨hnil, hseen⟩ | ⟨⟨other, hother, hunreached⟩, hseen⟩ |
    ⟨w, pre, hw, hstops⟩
  · -- there is no unlock
    have honly : ∀ y, Relation.ReflTransGen
        (fun x y => x ∉ lock.correspondingUnlocks ∧ graph.Edge x y) lock.node y → y = lock.node := by
      intro y hy
      induction hy with
      | refl => rfl
      | tail _ hstep ih => exact h.none hnil _ (ih ▸ hstep.2)
    rw [hseen]
    exact ⟨fun hx => absurd (honly x hx.2) hx.1, fun hx => absurd hx.2 hx.1⟩
  · -- an unlock is not met
    rw [hseen]
    have hall := inSection_of_suffix (searched lock) (List.suffix_refl _) fun a ha hunlock =>
      h.passed a hunlock (mem_searched.1 (List.mem_of_mem_tail ha))
        ⟨other, hother, fun hle => hunreached
          (hle.reaches (mem_searched.1 (List.mem_of_mem_tail ha)))⟩
    constructor
    · exact fun hx => ⟨hx.1, mem_searched.2 hx.reaches⟩
    · exact fun hx => (hall x hx.2).resolve_left hx.1
  · -- the search stops at `w`
    have hwreach := mem_searched.1 (hstops.order_suffix.subset List.mem_cons_self)
    have hpassed : ∀ a ∈ pre, a ∈ lock.correspondingUnlocks →
        ∀ x, graph.Edge a x → x = lock.node ∨ InSection lock x := by
      intro a ha hunlock
      obtain ⟨later, earlier, hsplit⟩ := List.append_of_mem ha
      have hsuffix : a :: earlier <:+ pre := ⟨later, hsplit.symm⟩
      have horder := hsuffix.trans ((List.suffix_cons w pre).trans hstops.order_suffix)
      refine h.passed a hunlock (mem_searched.1 (horder.subset List.mem_cons_self)) ⟨w, hw, ?_⟩
      rw [noLater_iff horder]
      exact fun hmem => hstops.fresh (hsuffix.subset hmem)
    have hall := inSection_of_suffix (w :: pre) hstops.order_suffix hpassed
    rw [hstops.mem]
    constructor
    · intro hx
      refine ⟨hx.1, ?_⟩
      rcases h.last w hw hwreach
        (fun other hother => (noLater_iff hstops.order_suffix).2 (hstops.meets other hother)) x hx
        with hle | ⟨caller, hcaller, hedge, hpath⟩
      · exact Or.inl ((noLater_iff hstops.order_suffix).1 hle)
      · rw [precedes_iff hstops.order_suffix] at hcaller
        exact Or.inr (Or.inr ⟨caller, hcaller, List.not_mem_nil, hedge,
          (leads_iff_path hstops.order_suffix hcaller).2 hpath⟩)
    · rintro ⟨hne, hx | hx | ⟨a, ha, _, hedge, _⟩⟩
      · exact (hall x hx).resolve_left hne
      · exact absurd (List.mem_singleton.1 hx) hne
      · have hgood : x = lock.node ∨ InSection lock x := by
          by_cases hunlock : a ∈ lock.correspondingUnlocks
          · exact hpassed a ha hunlock x hedge
          · exact InSection.step (hall a (List.mem_cons_of_mem _ ha)) hunlock hedge
        exact hgood.resolve_left hne

/-- A search that sees the section stops in time. -/
theorem stopsInTime_of_inSection_iff
    (h : ∀ x, InSection lock x ↔ x ≠ lock.node ∧ x ∈ seenFrom lock) : StopsInTime lock := by
  rcases seenFrom_cases lock with ⟨hnil, hseen⟩ | ⟨⟨other, hother, hunreached⟩, hseen⟩ |
    ⟨w, pre, hw, hstops⟩
  · refine ⟨fun _ x hedge => ?_, fun unlock hunlock => ?_, fun unlock hunlock => ?_⟩
    · by_contra hne
      have hin : InSection lock x := ⟨hne, .single ⟨by simp [hnil], hedge⟩⟩
      exact hne ((hseen x).1 ((h x).1 hin).2)
    · simp [hnil] at hunlock
    · simp [hnil] at hunlock
  · refine ⟨fun hnil => ?_, fun unlock _ hreach _ x hedge => ?_, fun unlock _ hreach hall => ?_⟩
    · simp [hnil] at hother
    · by_cases hne : x = lock.node
      · exact Or.inl hne
      · exact Or.inr ((h x).2 ⟨hne, hseen ▸ mem_searched.2 (hreach.tail hedge)⟩)
    · exact absurd ((hall other hother).reaches hreach) hunreached
  · have horder := hstops.order_suffix
    refine ⟨fun hnil => ?_, ?_, ?_⟩
    · simp [hnil] at hw
    · rintro unlock hunlock hreach ⟨other, hother, hlater⟩ x hedge
      by_cases hne : x = lock.node
      · exact Or.inl hne
      refine Or.inr ((h x).2 ⟨hne, (hstops.mem x).2 ?_⟩)
      have hmem : unlock ∈ pre := by
        rcases List.mem_cons.1 (hstops.meets unlock hunlock) with rfl | hmem
        · exact absurd ((noLater_iff horder).2 (hstops.meets other hother)) hlater
        · exact hmem
      by_cases hx : x ∈ w :: pre
      · exact Or.inl hx
      · exact Or.inr (Or.inr ⟨unlock, hmem, List.not_mem_nil, hedge,
          leads_of_not_mem (fun a _ => Finset.mem_univ a) _ _ _ (card_unseen_lt Node)
            List.nodup_nil horder hmem List.not_mem_nil hedge hx⟩)
    · intro unlock hunlock hreach hall x hx
      -- the unlock is the one that the search stops at
      have heq : unlock = w := by
        rcases List.mem_cons.1 (hstops.meets unlock hunlock) with heq | hmem
        · exact heq
        · obtain ⟨later, earlier, hsplit⟩ := List.append_of_mem hmem
          have hsuffix : unlock :: earlier <:+ pre := ⟨later, hsplit.symm⟩
          have hle := (noLater_iff (hsuffix.trans ((List.suffix_cons w pre).trans horder))).1
            (hall w hw)
          exact absurd (hsuffix.subset hle) hstops.fresh
      subst heq
      rcases (hstops.mem x).1 ((h x).1 hx).2 with hmem | hmem | ⟨caller, hcaller, _, hedge, hleads⟩
      · exact Or.inl ((noLater_iff horder).2 hmem)
      · exact absurd (List.mem_singleton.1 hmem) hx.1
      · exact Or.inr ⟨caller, (precedes_iff horder).2 hcaller, hedge,
          (leads_iff_path horder hcaller).1 hleads⟩

/-- The section that is built for the lock is its critical section. -/
def Collects [DecidableEq CallInst] (callInstruction : Node → CallInst) (lock : LockNode graph) :
    Prop :=
  ∀ builder : CriticalSectionsBuilder Node CallInst, Ready callInstruction lock builder →
    ∃ changed builder' criticalSection,
      buildCriticalSection callInstruction lock builder = some (changed, builder') ∧
      builder'.criticalSections.lookup (callInstruction lock.node) = some criticalSection ∧
      ∀ x, x ∈ criticalSection.nodes ↔ InSection lock x

/-- **When a critical section is collected.** -/
theorem collects_iff [DecidableEq CallInst] (callInstruction : Node → CallInst)
    (lock : LockNode graph) : Collects callInstruction lock ↔ StopsInTime lock := by
  constructor
  · intro h
    have hready : Ready callInstruction lock ({} : CriticalSectionsBuilder Node CallInst) :=
      ⟨rfl, rfl, rfl⟩
    obtain ⟨_, _, section₁, hrun₁, hlookup₁, hnodes₁⟩ := h {} hready
    obtain ⟨_, _, section₂, hrun₂, _, _, hlookup₂, hnodes₂⟩ :=
      buildCriticalSection_nodes callInstruction lock hready
    rw [hrun₁] at hrun₂
    obtain ⟨rfl, rfl⟩ := Prod.ext_iff.1 (Option.some.inj hrun₂)
    rw [hlookup₁] at hlookup₂
    obtain rfl := Option.some.inj hlookup₂
    exact stopsInTime_of_inSection_iff fun x => (hnodes₁ x).symm.trans (hnodes₂ x)
  · intro h builder hready
    obtain ⟨changed, builder', criticalSection, hrun, _, _, hlookup, hnodes⟩ :=
      buildCriticalSection_nodes callInstruction lock hready
    exact ⟨changed, builder', criticalSection, hrun, hlookup,
      fun x => (hnodes x).trans h.inSection_iff.symm⟩

end Exact

/-- A branch after the lock 0 with an unlock on either side: 2 and 3, which both go to 4. -/
def unlockOnBothSides : ThreadFlowGraph (Fin 5) where
  getType := ![.lock, .general, .unlock, .unlock, .general]
  successors := ![[1], [2, 3], [4], [4], []]
  predecessors := ![[], [0], [1], [1], [2, 3]]
  forkSuccessors _ := []
  forkPredecessors _ := []
  joinSuccessors _ := []
  joinPredecessors _ := []
  successors_nodup := by decide
  predecessors_nodup := by decide
  forkSuccessors_nodup _ := List.nodup_nil
  forkPredecessors_nodup _ := List.nodup_nil
  joinSuccessors_nodup _ := List.nodup_nil
  joinPredecessors_nodup _ := List.nodup_nil
  mem_predecessors := by decide
  mem_forkPredecessors := by decide
  mem_joinPredecessors := by decide
  forkSuccessors_type := by decide
  joinSuccessors_type := by decide

def lockBeforeBranch : LockNode unlockOnBothSides where
  node := 0
  correspondingUnlocks := [2, 3]
  node_type := rfl
  unlock_type := by decide

/-- The search comes to 4 after the first unlock, before it has seen the other one. -/
theorem collected_after_unlock : ¬ Collects (id : Fin 5 → Fin 5) lockBeforeBranch := by
  intro h
  obtain ⟨changed, builder, criticalSection, hrun, hlookup, hnodes⟩ := h {} ⟨rfl, rfl, rfl⟩
  have hbuild : (buildCriticalSection (id : Fin 5 → Fin 5) lockBeforeBranch {}).bind (fun result =>
      (result.2.criticalSections.lookup (0 : Fin 5)).map fun criticalSection =>
        decide (4 ∈ criticalSection.nodes)) = some true := by
    decide +kernel
  rw [hrun, Option.bind_some, show builder.criticalSections.lookup (0 : Fin 5) =
    some criticalSection from hlookup, Option.map_some] at hbuild
  have hmem : (4 : Fin 5) ∈ criticalSection.nodes := of_decide_eq_true (Option.some.inj hbuild)
  -- every edge to 4 comes from an unlock
  rcases Relation.ReflTransGen.cases_tail ((hnodes 4).1 hmem).2 with heq | ⟨x, _, hnot, hedge⟩
  · exact absurd heq (by decide)
  · have hcallers : ∀ x, unlockOnBothSides.Edge x 4 →
        x ∈ lockBeforeBranch.correspondingUnlocks := by decide
    exact hnot (hcallers x hedge)

end CriticalSectionsBuilder

end Cape.ThreadRegions
