import Cape.Library.FallibleLoop
import Cape.Library.FinLiterals
import Cape.PointerAnalysis.FlowSensitiveRuns
import Cape.PointerAnalysis.InvalidationSoundness

/-!
# Runs with invalidation

The nodes are processed in any order (`FSInv.Reached`). No node writes into the map of another one
that merges, so that the map of an INVALIDATE_LOCALS node is what the node made of it when it was
processed last: it has no pointer to a local whose instance is known (`FSInv.noLocals_of_reached`).
-/

set_option autoImplicit false

namespace Cape.PointerAnalysis

open Cape.Library

universe u

variable {N : Type u} [DecidableEq N]

namespace FSInv

open FS

/-! ## Where the maps differ -/

/-- The states differ in the memory map `mm` only, and no object was removed. -/
structure InMap (mm : N) (s t : State N (Key N)) : Prop where
  other : ∀ k : Key N, k.1 ≠ mm → t.objects k = s.objects k
  some : ∀ k, (s.objects k).isSome = true → (t.objects k).isSome = true
  parent : t.parent = s.parent

namespace InMap

variable {mm : N}

omit [DecidableEq N] in
theorem refl (s : State N (Key N)) : InMap mm s s := ⟨fun _ _ => rfl, fun _ => id, rfl⟩

omit [DecidableEq N] in
theorem trans {s t u : State N (Key N)} (hst : InMap mm s t) (htu : InMap mm t u) :
    InMap mm s u where
  other := fun k hk => (htu.other k hk).trans (hst.other k hk)
  some := fun k hk => htu.some k (hst.some k hk)
  parent := htu.parent.trans hst.parent

/-- An object of the map is written. -/
theorem write (x : PSNode N) (o : MemoryObject N) (s : State N (Key N)) :
    InMap mm s { s with objects := Function.update s.objects (mm, x) (Option.some o) } where
  other := fun _ hk => Function.update_of_ne (fun heq => hk (congrArg Prod.fst heq)) _ _
  some := by
    intro k hk
    by_cases heq : k = (mm, x)
    · subst heq
      simp
    · simpa [Function.update_of_ne heq] using hk
  parent := rfl

theorem getOrCreateMO (x : PSNode N) (s : State N (Key N)) :
    InMap mm s (FS.getOrCreateMO mm x s) := by
  rw [FS.getOrCreateMO]
  split
  · exact refl s
  · exact write x _ s

theorem modifyCell (x : PSNode N) (off : Offset) (f : Step (PointsToSet N)) (s : State N (Key N)) :
    InMap mm s (State.modifyCell (mm, x) off f s).1 := by
  rw [State.modifyCell]
  split
  · exact refl s
  · exact write x _ s

omit [DecidableEq N] in
theorem composes : Step.Composes fun (s t : State N (Key N)) (_ : Bool) => InMap mm s t :=
  ⟨refl, fun hst htu => hst.trans htu⟩

omit [DecidableEq N] in
theorem each {α : Type*} {f : α → Step (State N (Key N))} {l : List α}
    (hf : ∀ a ∈ l, ∀ s, InMap mm s (f a s).1) (s : State N (Key N)) :
    InMap mm s (Step.each f l s).1 :=
  Step.each_keeps (P := fun t => InMap mm s t) (fun a ha t ht => ht.trans (hf a ha t)) (refl s)

theorem mapWrites : MapWrites mm fun (s t : State N (Key N)) (_ : Bool) => InMap mm s t where
  composes := composes
  create := getOrCreateMO
  entry := fun x off s => modifyCell x off _ s
  add := fun x off _ s => modifyCell x off _ s

theorem handleTarget (skipped : Option (PSNode N)) (change : Step (PointsToSet N))
    (image : Pointer N → List (Pointer N)) (pm : N) (x : PSNode N) (s : State N (Key N)) :
    InMap mm s (FSInv.handleTarget skipped change image mm pm x s).1 := by
  rw [FSInv.handleTarget]
  split
  · have hcreate : InMap mm s (FS.getOrCreateMO mm x s) := getOrCreateMO x s
    let t := (Step.each (fun off => State.modifyCell (mm, x) off change)
      ((FS.getOrCreateMO mm x s).offsets (mm, x)) (FS.getOrCreateMO mm x s)).1
    have hchange : InMap mm (FS.getOrCreateMO mm x s) t :=
      each (fun off _ u => modifyCell x off change u) _
    have hmerge : InMap mm t (Step.each (mergeEntry image mm pm x) (t.offsets (pm, x)) t).1 :=
      each (fun off _ u => each (fun p _ v => modifyCell x off (PointsToSet.add p) v) u) t
    exact (hcreate.trans hchange).trans hmerge
  · exact refl s

theorem handlePredecessor (order : KeyOrder N) (skipped : Option (PSNode N))
    (change : Step (PointsToSet N)) (image : Pointer N → List (Pointer N)) (pm : N)
    (s : State N (Key N)) :
    InMap mm s (FSInv.handlePredecessor order skipped change image mm pm s).1 :=
  each (fun x _ t => handleTarget skipped change image pm x t) s

theorem overwriteMOFromFree (x : PSNode N) (s : State N (Key N)) :
    InMap mm s (FSInv.overwriteMOFromFree mm x s).1 := by
  have hcreate : InMap mm s (FS.getOrCreateMO mm x s) := getOrCreateMO x s
  rw [FSInv.overwriteMOFromFree]
  split
  · exact refl s
  · split
    · exact hcreate
    · exact { hcreate.trans (write x _ _) with parent := rfl }

theorem invalidateMemory [Fintype N] (G : PointerGraph N) (order : KeyOrder N)
    (parent : N → Option Nat) (operand : PointsToSet N) (strongUpdate : Option (PSNode N)) (pm : N)
    (s : State N (Key N)) :
    InMap mm s (FSInv.invalidateMemory G order parent operand strongUpdate mm pm s).1 := by
  cases strongUpdate with
  | none => exact (refl s).trans (handlePredecessor order none _ _ pm _)
  | some x => exact (overwriteMOFromFree x s).trans (handlePredecessor order (.some x) _ _ pm _)

end InMap

/-! ## One node -/

section Step

variable [Fintype N] {G : PointerGraph N} {order : KeyOrder N} {opts : PointerAnalysisOptions}

/-- A node that merges has no other map than its own. -/
def OwnMaps (G : PointerGraph N) (s : MapState N) : Prop :=
  ∀ n mm, s.data n = some mm → needsMerge G n = true → mm = n

omit [DecidableEq N] [Fintype N] in
theorem needsMerge_of_canInvalidateMM {n : N} (h : canInvalidateMM G n = true) :
    needsMerge G n = true := by
  rw [needsMerge, h]
  rfl

omit [DecidableEq N] [Fintype N] in
theorem needsMerge_of_FS {n : N} (h : FS.needsMerge G n = true) : needsMerge G n = true := by
  rw [needsMerge, h, Bool.or_true]

omit [Fintype N] in
/-- **Before a node is processed** it gets a map, unless it has one. -/
theorem beforeProcessed_cases (order : KeyOrder N) (n : N) (s : MapState N) :
    ((s.data n).isSome = true ∧ (beforeProcessed G order n s).1 = s) ∨
    (s.data n = none ∧
      ((needsMerge G n = true ∧
        (beforeProcessed G order n s).1.data = Function.update s.data n (some n) ∧
        (beforeProcessed G order n s).1.state = if n = G.root then
          (mergeGlobalsState G order (Function.update s.data n (some n)) n s.state).1 else s.state) ∨
      (needsMerge G n = false ∧ ∃ p, (beforeProcessed G order n s).1 =
          { s with data := Function.update s.data n (s.data p) }))) := by
  unfold beforeProcessed
  split
  · next mm hmm => exact Or.inl ⟨by rw [hmm]; rfl, rfl⟩
  · next hnone =>
      refine Or.inr ⟨hnone, ?_⟩
      by_cases hmerge : needsMerge G n = true
      · rw [if_pos hmerge]
        simp only []
        split
        · exact Or.inl ⟨hmerge, rfl, rfl⟩
        · exact Or.inl ⟨hmerge, rfl, rfl⟩
      · rw [if_neg hmerge]
        have hmerge : needsMerge G n = false := by simpa using hmerge
        have hFS : FS.needsMerge G n = false := (Bool.or_eq_false_iff.1 hmerge).2
        obtain ⟨p, hp⟩ := exists_predecessor hFS
        rw [hp]
        exact Or.inr ⟨hmerge, p, rfl⟩

omit [Fintype N] in
theorem inMap_beforeProcessed (n : N) (s : MapState N) :
    InMap n s.state (beforeProcessed G order n s).1.state := by
  obtain ⟨-, heq⟩ | ⟨-, ⟨-, -, hstate⟩ | ⟨-, p, heq⟩⟩ := beforeProcessed_cases (G := G) order n s
  · rw [heq]
    exact .refl _
  · rw [hstate]
    split
    · exact InMap.mapWrites.mergeGlobalsState G order _ s.state
    · exact .refl _
  · rw [heq]
    exact .refl _

omit [Fintype N] in
theorem ownMaps_beforeProcessed {s : MapState N} (h : OwnMaps G s) (n : N) :
    OwnMaps G (beforeProcessed G order n s).1 := by
  intro m mm hmm hmerge
  obtain ⟨-, heq⟩ | ⟨-, ⟨-, hdata, -⟩ | ⟨hshare, p, heq⟩⟩ :=
    beforeProcessed_cases (G := G) order n s
  · rw [heq] at hmm
    exact h m mm hmm hmerge
  · rw [hdata] at hmm
    by_cases hm : m = n
    · subst hm
      rw [Function.update_self, Option.some.injEq] at hmm
      exact hmm.symm
    · rw [Function.update_of_ne hm] at hmm
      exact h m mm hmm hmerge
  · by_cases hm : m = n
    · subst hm
      rw [hshare] at hmerge
      cases hmerge
    · rw [heq] at hmm
      have hmm : Function.update s.data n (s.data p) m = some mm := hmm
      rw [Function.update_of_ne hm] at hmm
      exact h m mm hmm hmerge

omit [Fintype N] in
/-- A map is never replaced. -/
theorem data_beforeProcessed_of_some (n : N) {m mm : N} {s : MapState N}
    (h : s.data m = some mm) : (beforeProcessed G order n s).1.data m = some mm := by
  obtain ⟨-, heq⟩ | ⟨hnone, ⟨-, hdata, -⟩ | ⟨-, p, heq⟩⟩ :=
    beforeProcessed_cases (G := G) order n s
  · rw [heq]
    exact h
  · have hm : m ≠ n := fun hm => by simp [← hm, h] at hnone
    rw [hdata, Function.update_of_ne hm]
    exact h
  · have hm : m ≠ n := fun hm => by simp [← hm, h] at hnone
    rw [heq]
    exact (Function.update_of_ne hm _ _).trans h

/-- **After a node is processed**, only its map has changed. -/
theorem inMap_afterProcessed {fuel : Nat} {n : N} {s t : MapState N} {changed : Bool}
    (h : afterProcessed G order fuel n s = some (t, changed)) :
    ∃ mm, s.data n = some mm ∧ t.data = s.data ∧ InMap mm s.state t.state ∧
      (needsMerge G n = false → t.state = s.state) := by
  obtain ⟨mm, hmm, hresult⟩ := Option.bind_eq_some_iff.1 h
  refine ⟨mm, hmm, ?_⟩
  split at hresult
  · next hkind =>
      obtain rfl := congrArg Prod.fst (Option.some.inj hresult)
      refine ⟨rfl, InMap.each (fun pm _ u => InMap.handlePredecessor order none _ _ pm u) _, ?_⟩
      intro hmerge
      rw [needsMerge_of_canInvalidateMM (by simp [canInvalidateMM, hkind])] at hmerge
      cases hmerge
  · next hkind =>
      obtain rfl := congrArg Prod.fst (Option.some.inj hresult)
      refine ⟨rfl, InMap.each (fun pm _ u => InMap.invalidateMemory G order _ _ none pm u) _, ?_⟩
      intro hmerge
      rw [needsMerge_of_canInvalidateMM (by simp [canInvalidateMM, hkind])] at hmerge
      cases hmerge
  · next hkind =>
      obtain ⟨strongUpdate, -, hresult⟩ := Option.map_eq_some_iff.1 hresult
      obtain rfl := congrArg Prod.fst hresult
      refine ⟨rfl, InMap.each (fun pm _ u => InMap.invalidateMemory G order _ _ _ pm u) _, ?_⟩
      intro hmerge
      rw [needsMerge_of_canInvalidateMM (by simp [canInvalidateMM, hkind])] at hmerge
      cases hmerge
  · obtain rfl := congrArg Prod.fst (Option.some.inj hresult)
    have hmeets := meets_afterProcessed (G := G) order (n := n) s
      (R := fun u v _ => InMap mm u v) (fun u => .refl u) (fun mm' hmm' _ => by
        obtain rfl : mm = mm' := Option.some.inj (hmm.symm.trans hmm')
        exact InMap.mapWrites)
    have hdata : (FS.afterProcessed G order n s).1.data = s.data := by
      unfold FS.afterProcessed
      split
      · rfl
      · split <;> rfl
    refine ⟨hdata, hmeets, fun hmerge => ?_⟩
    have hFS : FS.needsMerge G n = false := (Bool.or_eq_false_iff.1 hmerge).2
    simp [FS.afterProcessed, hmm, hFS]

omit [Fintype N] in
theorem cell_process_of_ne {m n : N} (h : m ≠ n) {s : MapState N} (hs : OwnMaps G s)
    (x : PSNode N) (off : Offset) :
    (process G opts n s).1.state.cell (m, x) off = s.state.cell (m, x) off := by
  have hfinds : FS.needsMerge G n = true →
      (memory G s.data).FindsIn (fun k => k.1 = n) n := by
    intro hmerge p t k hk
    obtain ⟨mm, hmm, rfl⟩ := mem_getMemoryObjects G hk
    exact hs n _ hmm (needsMerge_of_FS hmerge)
  have hprocess := (memory G s.data).spares_processNode opts (K := fun k => k.1 = n)
    (c := s.state.cell) (n := n)
    (fun _ _ hkind => hfinds (needsMerge_store hkind))
    (fun _ _ _ hkind => hfinds (needsMerge_memcpy hkind)) s.state fun _ _ _ => rfl
  exact hprocess (m, x) h off

/-- What one node does, for the others. -/
structure Frame (G : PointerGraph N) (n : N) (s t : MapState N) : Prop where
  data : ∀ m mm, s.data m = some mm → t.data m = some mm
  some : ∀ k, (s.state.objects k).isSome = true → (t.state.objects k).isSome = true
  alloc : ∀ a, G.kind a = .alloc → t.state.parent a = s.state.parent a
  cell : ∀ m, m ≠ n → ∀ x off, t.state.cell (m, x) off = s.state.cell (m, x) off
  parent : ∀ m, m ≠ n → t.state.parent m = s.state.parent m

/-- **A node changes nothing of the others**, and it keeps who has which map. -/
theorem frame_step {fuel : Nat} {n : N} {s t : MapState N} {changed : Bool} (hs : OwnMaps G s)
    (h : step G order opts fuel n s = some (t, changed)) : OwnMaps G t ∧ Frame G n s t := by
  obtain ⟨⟨t', report⟩, hafter, heq⟩ := Option.map_eq_some_iff.1 h
  obtain rfl : t' = t := congrArg Prod.fst heq
  let u := (beforeProcessed G order n s).1
  let v := (process G opts n u).1
  obtain ⟨mm, hmm, hdata, hmap, hshared⟩ := inMap_afterProcessed hafter
  have hown : OwnMaps G u := ownMaps_beforeProcessed hs n
  have hbefore : InMap n s.state u.state := inMap_beforeProcessed n s
  -- a node that does not merge writes to no map
  have hlast : ∀ m, m ≠ n → ∀ x off, t'.state.cell (m, x) off = v.state.cell (m, x) off := by
    intro m hm x off
    cases hmerge : needsMerge G n with
    | true =>
        obtain rfl : mm = n := hown n mm hmm hmerge
        rw [State.cell, State.cell, hmap.other (m, x) hm]
    | false => rw [hshared hmerge]
  refine ⟨?_, ?_, ?_, ?_, ?_, ?_⟩
  · intro m mm' hmm' hmerge
    rw [hdata] at hmm'
    exact hown m mm' hmm' hmerge
  · intro m mm' hmm'
    rw [hdata]
    exact data_beforeProcessed_of_some n hmm'
  · intro k hk
    exact hmap.some k ((le_process n u).objects k (hbefore.some k hk))
  · intro a ha
    rw [hmap.parent]
    exact (parent_process ha n u).trans (congrFun hbefore.parent a)
  · intro m hm x off
    rw [hlast m hm x off]
    refine (cell_process_of_ne hm hown x off).trans ?_
    rw [State.cell, State.cell, hbefore.other (m, x) hm]
  · intro m hm
    rw [hmap.parent]
    exact (parent_process_of_ne hm u).trans (congrFun hbefore.parent m)

end Step

/-! ## All runs -/

section Runs

variable [Fintype N] (G : PointerGraph N) (order : KeyOrder N) (opts : PointerAnalysisOptions)

/-- The states that nodes lead to, in any order and any number of times. -/
inductive Reached : MapState N → Prop
  | start : Reached (start G)
  | step {fuel : Nat} {n : N} {s t : MapState N} {changed : Bool} : Reached s →
      step G order opts fuel n s = some (t, changed) → Reached t

/-- The nodes one after another, as in one iteration of `run`. -/
def steps (fuel : Nat) (l : List N) (s : MapState N) : Option (MapState N) :=
  l.foldlM (fun s n => (FSInv.step G order opts fuel n s).map Prod.fst) s

theorem Reached.steps {G : PointerGraph N} {order : KeyOrder N} {opts : PointerAnalysisOptions}
    {fuel : Nat} {l : List N} {s t : MapState N} (hs : Reached G order opts s)
    (h : steps G order opts fuel l s = some t) : Reached G order opts t :=
  FallibleLoop.keeps (fun n _ _ _ hu hstep => by
    obtain ⟨⟨_, _⟩, hdone, rfl⟩ := Option.map_eq_some_iff.1 hstep
    exact hu.step hdone) hs h

/-- What is in the map of an INVALIDATE_LOCALS node came from a predecessor, without the pointers
that the node removes. -/
structure Clean (n : N) (s : MapState N) : Prop where
  noLocals : ∀ x off, NoLocals G s.state.parent n (s.state.cell (n, x) off)
  source : ∀ x off, s.state.cell (n, x) off ≠ .empty → isInvalidTarget x = false ∧
    ∃ pm ∈ predecessorMaps G s n, TakesPart s.state n x pm

variable {G order opts}

theorem isRemovable_congr {parent parent' : N → Option Nat} {n : N} (hn : parent' n = parent n)
    (halloc : ∀ a, G.kind a = .alloc → parent' a = parent a) (p : Pointer N) :
    isRemovable G parent' n p = isRemovable G parent n p := by
  unfold isRemovable
  split
  · next a ha =>
      by_cases hkind : G.kind a = .alloc
      · simp [isLocal, knownInstance, isOnLoop, hn, halloc a hkind]
      · simp [hkind]
  · rfl

omit [DecidableEq N] [Fintype N] in
theorem predecessorMaps_mono {s t : MapState N}
    (h : ∀ m mm, s.data m = some mm → t.data m = some mm) {n pm : N}
    (hpm : pm ∈ predecessorMaps G s n) : pm ∈ predecessorMaps G t n := by
  obtain ⟨p, hp, hdata⟩ := List.mem_filterMap.1 hpm
  exact List.mem_filterMap.2 ⟨p, hp, h p pm hdata⟩

omit [DecidableEq N] [Fintype N] in
theorem TakesPart.mono {s t : State N (Key N)}
    (h : ∀ k, (s.objects k).isSome = true → (t.objects k).isSome = true) {mm pm : N} {x : PSNode N}
    (hpart : TakesPart s mm x pm) : TakesPart t mm x pm := hpart.imp_right (h _)

/-- Other nodes leave the map clean. -/
theorem Clean.frame {n m : N} (hne : n ≠ m) {s t : MapState N} (h : Clean G n s)
    (hframe : Frame G m s t) : Clean G n t where
  noLocals := by
    intro x off p hp
    rw [hframe.cell n hne] at hp
    rw [isRemovable_congr (hframe.parent n hne) hframe.alloc]
    exact h.noLocals x off p hp
  source := by
    intro x off hcell
    rw [hframe.cell n hne] at hcell
    obtain ⟨hx, pm, hpm, hpart⟩ := h.source x off hcell
    exact ⟨hx, pm, predecessorMaps_mono hframe.data hpm, hpart.mono hframe.some⟩

omit [Fintype N] in
/-- The objects of the static nodes are passed over. -/
theorem objects_handlePredecessor_of_invalid (skipped : Option (PSNode N))
    (change : Step (PointsToSet N)) (image : Pointer N → List (Pointer N)) (mm pm : N)
    {x : PSNode N} (hx : isInvalidTarget x = true) (s : State N (Key N)) :
    (handlePredecessor order skipped change image mm pm s).1.objects (mm, x) =
      s.objects (mm, x) := by
  refine Step.each_keeps (P := fun t : State N (Key N) => t.objects (mm, x) = s.objects (mm, x))
    (fun y _ t ht => ?_) rfl
  by_cases hy : x = y
  · subst hy
    rw [handleTarget, if_neg (by simp [hx])]
    exact ht
  · have hne : (mm, x) ≠ (mm, y) := fun heq => hy (congrArg Prod.snd heq)
    exact (objects_handleTarget change image skipped hne t).trans ht

omit [Fintype N] in
/-- Processing an INVALIDATE_LOCALS node writes to no memory. -/
theorem objects_process_invalidateLocals {n : N} {op : PSNode N}
    (hkind : G.kind n = .invalidateLocals op) (s : MapState N) :
    (process G opts n s).1.state.objects = s.state.objects := by
  show (processNode G opts (getMemoryObjects G s.data) n s.state).1.objects = _
  rw [processNode, hkind]
  cases op with
  | node m =>
      simp only []
      rcases hsucc : G.successors m with _ | ⟨succ, _ | _⟩
      · rfl
      · rfl
      · rfl
  | nullptr => rfl
  | unknownMemory => rfl
  | invalidated => rfl

/-- The node cleans its map. -/
theorem Clean.turns {n : N} {op : PSNode N} (hkind : G.kind n = .invalidateLocals op) {s : MapState N}
    (hn : s.data n = some n)
    (hsource : ∀ x off, s.state.cell (n, x) off ≠ .empty → isInvalidTarget x = false ∧
      ∃ pm ∈ predecessorMaps G s n, TakesPart s.state n x pm)
    {fuel : Nat} {t : MapState N} {changed : Bool}
    (h : afterProcessed G order fuel n s = some (t, changed)) : Clean G n t := by
  obtain ⟨mm, hmm, hdata, hmap, -⟩ := inMap_afterProcessed h
  obtain rfl : n = mm := Option.some.inj (hn.symm.trans hmm)
  let l := predecessorMaps G s n
  let f := handleInvalidateLocals G order s.state.parent n n
  have hstate : t.state = (Step.each f l s.state).1 := by
    obtain ⟨mm', hmm', hresult⟩ := Option.bind_eq_some_iff.1 h
    obtain rfl : n = mm' := Option.some.inj (hn.symm.trans hmm')
    rw [hkind] at hresult
    exact congrArg (fun r : MapState N × Bool => r.1.state) (Option.some.inj hresult).symm
  have hentry : ∀ y off, t.state.entry (n, .node y) off =
      l.foldl (turn (removeLocals G s.state.parent n) (withoutLocal G s.state.parent n) s.state n
        (.node y) off) (s.state.entry (n, .node y) off) := fun y off => by
    rw [hstate]
    exact entry_eachLocals order s.state.parent n n y off l s.state
  have hstatic : ∀ x, isInvalidTarget x = true → ∀ off, t.state.cell (n, x) off = .empty := by
    intro x hx off
    have hobjects : t.state.objects (n, x) = s.state.objects (n, x) := by
      rw [hstate]
      exact Step.each_keeps (P := fun u : State N (Key N) => u.objects (n, x) = s.state.objects (n, x))
        (fun pm _ u hu => (objects_handlePredecessor_of_invalid none _ _ n pm hx u).trans hu) rfl
    rw [State.cell, hobjects]
    by_contra hne
    rw [(hsource x off hne).1] at hx
    cases hx
  constructor
  case noLocals =>
    intro x off
    rw [hmap.parent]
    cases x with
    | node y =>
        rw [State.cell_eq_entry, hentry]
        by_cases hempty : s.state.cell (n, .node y) off = .empty
        · -- the turns bring in no pointer that is removed
          refine List.foldlRecOn (motive := fun e => NoLocals G s.state.parent n (content e)) l _ ?_
            fun e he pm _ => noLocals_turn (Or.inr he)
          rw [content, ← State.cell_eq_entry, hempty]
          exact fun p hp => absurd hp (PointsToSet.mem_empty p)
        · obtain ⟨-, pm, hpm, hpart⟩ := hsource _ off hempty
          exact foldl_establishes (P := fun _ => True)
            (Q := fun e => NoLocals G s.state.parent n (content e)) hpm (fun _ _ _ _ => trivial)
            (fun e _ => noLocals_turn (Or.inl hpart)) (fun e b _ he => noLocals_turn (Or.inr he))
            trivial
    | nullptr => rw [hstatic _ rfl]; exact fun p hp => absurd hp (PointsToSet.mem_empty p)
    | unknownMemory => rw [hstatic _ rfl]; exact fun p hp => absurd hp (PointsToSet.mem_empty p)
    | invalidated => rw [hstatic _ rfl]; exact fun p hp => absurd hp (PointsToSet.mem_empty p)
  case source =>
    intro x off hcell
    cases x with
    | node y =>
        refine ⟨rfl, ?_⟩
        have hmaps : predecessorMaps G t n = l := by
          rw [predecessorMaps, hdata]
          rfl
        rw [hmaps]
        by_contra hnone
        -- no map takes part, so that the entry is as it was
        have hturns : ∀ pm ∈ l, ¬ TakesPart s.state n (.node y) pm := fun pm hpm hpart =>
          hnone ⟨pm, hpm, hpart.mono hmap.some⟩
        have hsame : t.state.entry (n, .node y) off = s.state.entry (n, .node y) off := by
          rw [hentry]
          exact List.foldlRecOn (motive := fun e => e = s.state.entry (n, .node y) off) l _ rfl
            fun e he pm hpm => (turn_of_not (hturns pm hpm) e).trans he
        rw [State.cell_eq_entry, hsame, ← State.cell_eq_entry] at hcell
        obtain ⟨-, pm, hpm, hpart⟩ := hsource _ off hcell
        exact hturns pm hpm hpart
    | nullptr => exact absurd (hstatic _ rfl off) hcell
    | unknownMemory => exact absurd (hstatic _ rfl off) hcell
    | invalidated => exact absurd (hstatic _ rfl off) hcell

/-- The node itself. -/
theorem Clean.step {n : N} {op : PSNode N} (hkind : G.kind n = .invalidateLocals op)
    (hroot : n ≠ G.root) {s t : MapState N} (hs : OwnMaps G s) (hclean : Clean G n s) {fuel : Nat}
    {changed : Bool} (h : step G order opts fuel n s = some (t, changed)) : Clean G n t := by
  obtain ⟨⟨t', report⟩, hafter, heq⟩ := Option.map_eq_some_iff.1 h
  obtain rfl : t' = t := congrArg Prod.fst heq
  have hmerge : needsMerge G n = true :=
    needsMerge_of_canInvalidateMM (by simp [canInvalidateMM, hkind])
  let u := (beforeProcessed G order n s).1
  -- before, the node gets a map without objects
  have hstate : u.state = s.state ∧ u.data n = some n := by
    obtain ⟨hsome, hsame⟩ | ⟨-, ⟨-, hdata, hstate⟩ | ⟨hshare, -⟩⟩ :=
      beforeProcessed_cases (G := G) order n s
    · obtain ⟨mm, hmm⟩ := Option.isSome_iff_exists.1 hsome
      obtain rfl := hs n mm hmm hmerge
      simp only [u, hsame]
      exact ⟨trivial, hmm⟩
    · rw [if_neg hroot] at hstate
      refine ⟨hstate, ?_⟩
      rw [hdata, Function.update_self]
    · rw [hmerge] at hshare
      cases hshare
  have hobjects : (process G opts n u).1.state.objects = s.state.objects :=
    (objects_process_invalidateLocals hkind u).trans (congrArg State.objects hstate.1)
  have hcell : ∀ x off, (process G opts n u).1.state.cell (n, x) off = s.state.cell (n, x) off := by
    intro x off
    rw [State.cell, State.cell, hobjects]
  have hkept : (process G opts n u).1.data = u.data := rfl
  have hmap : (process G opts n u).1.data n = some n := hkept ▸ hstate.2
  refine Clean.turns (s := (process G opts n u).1) hkind hmap (fun x off hne => ?_) hafter
  rw [hcell] at hne
  obtain ⟨hx, pm, hpm, hpart⟩ := hclean.source x off hne
  have hdata : ∀ m mm, s.data m = some mm → (process G opts n u).1.data m = some mm := by
    intro m mm hmm
    rw [hkept]
    exact data_beforeProcessed_of_some n hmm
  refine ⟨hx, pm, predecessorMaps_mono hdata hpm, ?_⟩
  exact hpart.mono fun k hk => by rw [hobjects]; exact hk

/-- What all reached states have: maps of their own where maps merge, and clean ones at the
INVALIDATE_LOCALS nodes. -/
theorem clean_of_reached {s : MapState N} (h : Reached G order opts s) : OwnMaps G s ∧
    ∀ n op, G.kind n = .invalidateLocals op → n ≠ G.root → Clean G n s := by
  induction h with
  | start =>
      refine ⟨nofun, fun n op _ _ => ⟨fun x off p hp => ?_, fun x off hne => ?_⟩⟩
      · exact absurd hp (PointsToSet.mem_empty p)
      · exact absurd rfl hne
  | @step fuel m s t changed _ hstep ih =>
      obtain ⟨hown, hframe⟩ := frame_step ih.1 hstep
      refine ⟨hown, fun n op hkind hroot => ?_⟩
      have hclean := ih.2 n op hkind hroot
      by_cases hn : n = m
      · subst hn
        exact hclean.step hkind hroot ih.1 hstep
      · exact hclean.frame hn hframe

/-- **The map of an INVALIDATE_LOCALS node has no pointer to a local that the node destroys**, whatever
nodes were processed, in whatever order. -/
theorem noLocals_of_reached {s : MapState N} (h : Reached G order opts s) {n : N} {op : PSNode N}
    (hkind : G.kind n = .invalidateLocals op) (hroot : n ≠ G.root) (x : PSNode N) (off : Offset) :
    ∀ p ∈ s.state.cell (n, x) off, ∀ a, p.target = .node a → G.kind a = .alloc →
      isLocal G s.state.parent a n = true → isOnLoop G s.state.parent (.node a) = true := by
  intro p hp a ha halloc hlocal
  have hclean := ((clean_of_reached h).2 n op hkind hroot).noLocals x off p hp
  simpa [isRemovable, ha, halloc, hlocal, knownInstance] using hclean

end Runs

/-! ## The object that holds the freed pointer -/

theorem loadThenFree_globals : ([] : List (Fin 7)).Nodup := List.nodup_nil

/-- `a = alloc; f = alloc; p = a + 8; *p = f; q = *p; free(q)`, and the end of the procedure. -/
def loadThenFree : PointerGraph (Fin 7) where
  kind := ![.alloc, .alloc, .gep (.node 0) 8, .store (.node 1) (.node 2), .load (.node 2),
    .free (.node 4), .invalidateLocals (.node 0)]
  successors := ![[1], [2], [3], [4], [5], [6], []]
  predecessors := ![[], [0], [1], [2], [3], [4], [5]]
  callees := fun _ => []
  returnSites := fun _ => []
  size := ![16, 8, 0, 0, 0, 0, 0]
  isHeap := fun _ => false
  isGlobal := fun _ => false
  zeroInitialized := fun _ => false
  subgraphs := [0]
  parent := fun _ => some 0
  globals := []
  root := 0
  mem_predecessors := by decide
  nodup_globals := loadThenFree_globals

/-- The freed pointer was loaded from offset 8 of `a`. All of `a` is overwritten then, and INVALIDATED
comes to offset 0 only. -/
theorem invalidation_right_iff_loadThenFree : ∃ order fuel s t changed,
    afterProcessed loadThenFree order fuel 5 s = some (t, changed) ∧ ¬ Right loadThenFree 5 s t := by
  let order : KeyOrder (Fin 7) :=
    .ofNodes (List.finRange 7) (List.nodup_finRange 7) List.mem_finRange
  let before := steps loadThenFree order {} 3 [0, 1, 2, 3, 4] (start loadThenFree)
  obtain ⟨u, hu⟩ := Option.isSome_iff_exists.1 (show before.isSome = true by decide +kernel)
  let s := (process loadThenFree {} 5 (beforeProcessed loadThenFree order 5 u).1).1
  have hfacts : before.map (fun u =>
      let s := (process loadThenFree {} 5 (beforeProcessed loadThenFree order 5 u).1).1
      decide ((s.data 4 = some 3 ∧ s.data 5 = some 5) ∧
        ((s.state.cell (3, .node 0) 8).pointers = [⟨.node 1, 0⟩] ∧
          (s.state.pts (.node 4)).pointers = [⟨.node 1, 0⟩]) ∧
        moFromFreeToOverwrite loadThenFree 3 s.state (.node 4) = some (some (.node 0)) ∧
        (afterProcessed loadThenFree order 3 5 s).isSome = true)) = some true := by
    decide +kernel
  rw [hu, Option.map_some, Option.some.injEq] at hfacts
  obtain ⟨⟨hdata, hown⟩, ⟨hcell, hpts⟩, hmo, hafter⟩ := of_decide_eq_true hfacts
  obtain ⟨⟨t, changed⟩, ht⟩ := Option.isSome_iff_exists.1 hafter
  refine ⟨order, 3, s, t, changed, ht, fun hright => ?_⟩
  have hq : (⟨.node 1, 0⟩ : Pointer (Fin 7)) ∈ (s.state.cell (3, .node 0) 8).pointers := by
    rw [hcell]
    exact List.mem_singleton_self _
  have hheeded :=
    (invalidation_right_iff order 3 (by decide) ht).1 hright 5 hown 0 8 (some (.node 0)) hmo 3
      (List.mem_filterMap.2 ⟨4, by decide, hdata⟩) ⟨.node 1, 0⟩ hq
  -- what `a` holds at offset 8 is a pointer to what is freed
  have hinto : IntoDestroyed loadThenFree s.state 5 ⟨.node 1, 0⟩ := by
    refine ⟨1, rfl, rfl, Or.inl ?_⟩
    exact List.any_eq_true.2 ⟨⟨.node 1, 0⟩, hpts ▸ List.mem_singleton_self _, by decide⟩
  rw [if_pos rfl] at hheeded
  exact absurd (hheeded.2 hinto) (by decide)

/-- At the end of the procedure `a` holds INVALIDATED, and no local. -/
theorem noLocals_loadThenFree : ∃ order s, Reached loadThenFree order {} s ∧
    (s.state.cell (6, .node 0) 0).pointers = [invalidated] ∧
    ∀ x off, ∀ p ∈ s.state.cell (6, x) off, ∀ a, p.target = .node a →
      loadThenFree.kind a = .alloc → isLocal loadThenFree s.state.parent a 6 = true →
        isOnLoop loadThenFree s.state.parent (.node a) = true := by
  let order : KeyOrder (Fin 7) :=
    .ofNodes (List.finRange 7) (List.nodup_finRange 7) List.mem_finRange
  let run := steps loadThenFree order {} 3 [0, 1, 2, 3, 4, 5, 6] (start loadThenFree)
  have hcell : run.map (fun s => (s.state.cell (6, .node 0) 0).pointers) = some [invalidated] := by
    decide +kernel
  obtain ⟨s, hs, hcell⟩ := Option.map_eq_some_iff.1 hcell
  have hreached : Reached loadThenFree order {} s := Reached.start.steps hs
  exact ⟨order, s, hreached, hcell, noLocals_of_reached hreached rfl (by decide)⟩

end FSInv

end Cape.PointerAnalysis
