import Cape.PointerAnalysis.ChangeTracking
import Cape.PointerAnalysis.Frame
import Cape.PointerAnalysis.Transfer

/-!
# The flow-sensitive analysis

Every node has a memory map (`PointerAnalysisFS`). A node that may change memory, a join and a node
without predecessors create a map of their own, into which the maps of the predecessors are merged;
the other nodes share the map of their only predecessor. A store does not merge what it overwrites:
the places that its address may point to, when none of them was allocated on a loop.

The objects of all maps are in one store, known by the node that created the map and by their target.
Of one procedure: a `CALL_RETURN` joins no returns here, and an entry has no callers.
-/

set_option autoImplicit false

namespace Cape.PointerAnalysis

open Cape.Library

universe u

/-- The order of the keys in a memory map. -/
structure KeyOrder (N : Type u) where
  keys : List (PSNode N)
  nodup : keys.Nodup
  complete : ∀ x, x ∈ keys

/-- The nodes in an order of theirs, and behind them the static nodes. -/
def KeyOrder.ofNodes {N : Type u} (l : List N) (hnodup : l.Nodup) (hall : ∀ n, n ∈ l) :
    KeyOrder N where
  keys := l.map .node ++ [.nullptr, .unknownMemory, .invalidated]
  nodup := by
    refine List.nodup_append.2 ⟨hnodup.map fun _ _ h => PSNode.node.inj h, by simp, ?_⟩
    intro x hx y hy
    obtain ⟨n, -, rfl⟩ := List.mem_map.1 hx
    rintro rfl
    simp at hy
  complete := by
    intro x
    cases x with
    | node n => exact List.mem_append_left _ (List.mem_map_of_mem (hall n))
    | nullptr => simp
    | unknownMemory => simp
    | invalidated => simp

namespace FS

/-- The node that created the memory map, and the target in it. -/
abbrev Key (N : Type u) := N × PSNode N

/-- What the analysis changes: `getData` gives the memory map of a node, as the node that created
it. -/
structure MapState (N : Type u) where
  state : State N (Key N)
  data : N → Option N

variable {N : Type u} [DecidableEq N]

/-- Change the state, not the maps of the nodes. -/
def onState (f : Step (State N (Key N))) : Step (MapState N) :=
  Step.within MapState.state (fun s t => { s with state := t }) f

/-- `getOrCreateMO`. -/
def getOrCreateMO (mm : N) (x : PSNode N) (s : State N (Key N)) : State N (Key N) :=
  match s.objects (mm, x) with
  | some _ => s
  | none => { s with objects := Function.update s.objects (mm, x) (some (.create x)) }

variable (G : PointerGraph N)

/-- `canChangeMM`. -/
def canChangeMM (n : N) : Bool :=
  match G.kind n with
  | .store _ _ | .memcpy _ _ _ | .callFuncptr _ => true
  | .callReturn _ =>
      match G.kind (G.pairedNode n) with
      | .callFuncptr _ => true
      | _ => false
  | _ => false

/-- `needsMerge`. -/
def needsMerge (n : N) : Bool :=
  match G.predecessors n with
  | [_] =>
      match G.kind n with
      | .callReturn _ => true
      | _ => canChangeMM G n
  | _ => true

/-- `getMemoryObjects`: the object of the target in the map of the node. -/
def getMemoryObjects (data : N → Option N) : GetMemoryObjects N (Key N) := fun n p s =>
  match data n with
  | none => (s, [])
  | some mm =>
      if (s.objects (mm, p.target)).isSome || canChangeMM G n then
        (getOrCreateMO mm p.target s, [(mm, p.target)])
      else (s, [])

/-! ## Merging -/

section Merging

variable (order : KeyOrder N)

/-- The body of the loop of `mergeObjects`: the entry is created even when nothing comes into it. -/
def mergeEntry (mm pm : N) (x : PSNode N) (overwritten : Option (PointsToSet N)) (off : Offset) :
    Step (State N (Key N)) := fun s =>
  if overwritten.any fun S => S.has ⟨x, off⟩ then (s, false)
  else
    Step.andThen (State.modifyCell (mm, x) off Step.skip)
      (Step.each (State.addToCell (mm, x) off) (s.cell (pm, x) off).pointers) s

/-- `mergeObjects`, for the objects of a target. -/
def mergeObjects (mm pm : N) (x : PSNode N) (overwritten : Option (PointsToSet N)) :
    Step (State N (Key N)) := fun s =>
  Step.each (mergeEntry mm pm x overwritten) (s.offsets (pm, x)) s

/-- The body of the loop of `mergeMaps`. -/
def mergeTarget (mm pm : N) (overwritten : Option (PointsToSet N)) (x : PSNode N) :
    Step (State N (Key N)) := fun s =>
  if (s.objects (pm, x)).isSome then
    mergeObjects mm pm x overwritten (getOrCreateMO mm x s)
  else (s, false)

/-- `mergeMaps`. -/
def mergeMaps (mm pm : N) (overwritten : Option (PointsToSet N)) : Step (State N (Key N)) :=
  Step.each (mergeTarget mm pm overwritten) order.keys

/-- Merge the map of a node, if it was already created. -/
def mergeMapOf (data : N → Option N) (mm : N) (overwritten : Option (PointsToSet N)) (p : N) :
    Step (State N (Key N)) :=
  match data p with
  | none => Step.skip
  | some pm => mergeMaps order mm pm overwritten

/-- `mergeGlobalsState`. -/
def mergeGlobalsState (data : N → Option N) (mm : N) : Step (State N (Key N)) :=
  Step.each (mergeMapOf order data mm none) G.globals

end Merging

section Loops

variable [Fintype N]

/-- `isOnLoop`. -/
def isOnLoop (parent : N → Option Nat) : PSNode N → Bool
  | .node n =>
      match parent n with
      | none => false
      | some i => G.subgraphs[i]?.any fun r => G.inLoop r n
  | _ => false

/-- `pointsToAllocationInLoop`. -/
def pointsToAllocationInLoop (s : State N (Key N)) (x : PSNode N) : Bool :=
  (s.pts x).pointers.any fun p => p.isValid && !p.isInvalidated && isOnLoop G s.parent p.target

/-- What `afterProcessed` does not merge: a store into memory allocated outside of loops is a strong
update. -/
def overwritten (n : N) (s : State N (Key N)) : Option (PointsToSet N) :=
  match G.kind n with
  | .store _ address => if pointsToAllocationInLoop G s address then none else some (s.pts address)
  | _ => none

end Loops

/-! ## One node -/

section Steps

variable (order : KeyOrder N) (opts : PointerAnalysisOptions)

/-- `beforeProcessed`. The source asserts that the predecessor of a node that shares its map has
one. -/
def beforeProcessed (n : N) : Step (MapState N) := fun s =>
  match s.data n with
  | some _ => (s, false)
  | none =>
      if needsMerge G n then
        let s' : MapState N := { s with data := Function.update s.data n (some n) }
        if n = G.root then ((onState (mergeGlobalsState G order s'.data n) s').1, true)
        else (s', true)
      else
        match G.predecessors n with
        | p :: _ => ({ s with data := Function.update s.data n (s.data p) }, true)
        | [] => (s, true)

/-- `processNode` with the memory map of the node. -/
def process (n : N) : Step (MapState N) := fun s =>
  onState (processNode G opts (getMemoryObjects G s.data) n) s

/-- `afterProcessed`. -/
def afterProcessed [Fintype N] (n : N) : Step (MapState N) := fun s =>
  match s.data n with
  | none => (s, false)
  | some mm =>
      if needsMerge G n then
        onState (Step.each (mergeMapOf order s.data mm (overwritten G n s.state))
          (G.predecessors n)) s
      else (s, false)

/-- One node. -/
def step [Fintype N] (n : N) : Step (MapState N) :=
  Step.andThen (beforeProcessed G order n)
    (Step.andThen (process G opts n) (afterProcessed G order n))

/-- No node has a memory map. -/
def start : MapState N := ⟨.initial G, fun _ => none⟩

/-- The state after the global nodes. -/
def afterGlobals [Fintype N] : MapState N := (pass (step G order opts) G.globals (start G)).1

/-- `run`, without a limit on the iterations; there is no preprocessing. -/
def run [Fintype N] (fuel : Nat) : Option (MapState N) :=
  rounds (step G order opts) (FI.queueChanged G) fuel (G.getNodes [G.root])
    (afterGlobals G order opts)

end Steps

/-! ## The memory model -/

omit G in
theorem finds_getOrCreateMO (mm : N) (x : PSNode N) (s : State N (Key N)) :
    Finds s (getOrCreateMO mm x s) [(mm, x)] := by
  rw [getOrCreateMO]
  split
  · next o ho =>
      apply Finds.refl
      intro k hk
      rw [List.mem_singleton.1 hk, ho]
      rfl
  · next ho =>
      refine ⟨rfl, rfl, rfl, fun k => ?_, fun k hk => ?_⟩
      · by_cases hk : k = (mm, x)
        · exact Or.inr ⟨hk ▸ ho, x, hk ▸ Function.update_self _ _ _⟩
        · exact Or.inl (Function.update_of_ne hk _ _)
      · rw [List.mem_singleton.1 hk]
        simp

theorem finds_getMemoryObjects (data : N → Option N) (n : N) (p : Pointer N)
    (s : State N (Key N)) :
    Finds s (getMemoryObjects G data n p s).1 (getMemoryObjects G data n p s).2 := by
  rw [getMemoryObjects]
  split
  · exact Finds.refl (fun k hk => by cases hk)
  · split
    · exact finds_getOrCreateMO _ _ s
    · exact Finds.refl (fun k hk => by cases hk)

/-- The objects that are found are in the map of the node. -/
theorem mem_getMemoryObjects {data : N → Option N} {n : N} {p : Pointer N} {s : State N (Key N)}
    {k : Key N} (h : k ∈ (getMemoryObjects G data n p s).2) : ∃ mm, data n = some mm ∧ k.1 = mm := by
  rw [getMemoryObjects] at h
  split at h
  · cases h
  · next mm hmm =>
      split at h
      · rw [List.mem_singleton.1 h]
        exact ⟨mm, hmm, rfl⟩
      · cases h

/-- The memory model of the flow-sensitive analysis, with the maps that the nodes have. -/
def memory (data : N → Option N) : MemoryModel G (Key N) where
  getMemoryObjects := getMemoryObjects G data
  finds := finds_getMemoryObjects G data
  ofMemcpy := by
    intro n src dst len hkind p s t
    have hchange : canChangeMM G n = true := by simp [canChangeMM, hkind]
    simp only [getMemoryObjects, hchange, Bool.or_true, if_true]
    split <;> rfl

/-! ## What merging does -/

omit G

/-- The writes to the memory map `mm` meet the relation. -/
structure MapWrites (mm : N) (R : State N (Key N) → State N (Key N) → Bool → Prop) : Prop where
  composes : Step.Composes R
  create : ∀ x s, R s (getOrCreateMO mm x s) false
  entry : ∀ x off s, Step.Meets R (State.modifyCell (mm, x) off Step.skip) s
  add : ∀ x off p s, Step.Meets R (State.addToCell (mm, x) off p) s

namespace MapWrites

variable {mm : N} {R : State N (Key N) → State N (Key N) → Bool → Prop} (h : MapWrites mm R)
include h

theorem mergeEntry (pm : N) (x : PSNode N) (overwritten : Option (PointsToSet N)) (off : Offset)
    (s : State N (Key N)) : Step.Meets R (mergeEntry mm pm x overwritten off) s := by
  refine Step.Meets.ite (g := Step.skip) (h := Step.andThen _ _) rfl
    (fun _ => h.composes.skip s) fun _ => ?_
  apply Step.Meets.andThen h.composes (h.entry x off s)
  exact Step.Meets.each h.composes (fun p _ s => h.add x off p s) _

theorem mergeObjects (pm : N) (x : PSNode N) (overwritten : Option (PointsToSet N))
    (s : State N (Key N)) : Step.Meets R (mergeObjects mm pm x overwritten) s :=
  Step.Meets.each h.composes (fun off _ s => h.mergeEntry pm x overwritten off s) s

theorem mergeTarget (pm : N) (overwritten : Option (PointsToSet N)) (x : PSNode N)
    (s : State N (Key N)) : Step.Meets R (mergeTarget mm pm overwritten x) s := by
  refine Step.Meets.ite (g := fun s => FS.mergeObjects mm pm x overwritten (getOrCreateMO mm x s))
    (h := Step.skip) rfl (fun _ => ?_) fun _ => h.composes.skip s
  have hboth := h.composes.andThen (h.create x s)
    (h.mergeObjects pm x overwritten (getOrCreateMO mm x s))
  rw [Bool.false_or] at hboth
  exact hboth

theorem mergeMaps (order : KeyOrder N) (pm : N) (overwritten : Option (PointsToSet N))
    (s : State N (Key N)) : Step.Meets R (mergeMaps order mm pm overwritten) s :=
  Step.Meets.each h.composes (fun x _ s => h.mergeTarget pm overwritten x s) s

theorem mergeMapOf (order : KeyOrder N) (data : N → Option N)
    (overwritten : Option (PointsToSet N)) (p : N) (s : State N (Key N)) :
    Step.Meets R (mergeMapOf order data mm overwritten p) s := by
  unfold FS.mergeMapOf
  split
  · exact h.composes.skip s
  · exact h.mergeMaps order _ overwritten s

theorem mergeGlobalsState (G : PointerGraph N) (order : KeyOrder N) (data : N → Option N)
    (s : State N (Key N)) : Step.Meets R (mergeGlobalsState G order data mm) s :=
  Step.Meets.each h.composes (fun p _ s => h.mergeMapOf order data none p s) s

end MapWrites

theorem rises_mapWrites (mm : N) : MapWrites mm (State.Rises (N := N)) where
  composes := State.Rises.composes
  create := fun x s => (finds_getOrCreateMO mm x s).rises
  entry := fun x off s => State.rises_modifyCell
    (fun S => ⟨le_refl S, fun h => by cases h⟩) (mm, x) off s
  add := fun x off p s => State.rises_modifyCell (State.setRises_add p) (mm, x) off s

/-- The objects of other maps are spared. -/
theorem spares_mapWrites (mm : N) (c : Key N → Offset → PointsToSet N) :
    MapWrites mm fun s t _ => s.Outside (fun k => k.1 = mm) c → t.Outside (fun k => k.1 = mm) c where
  composes := ⟨fun _ => id, fun hst htu hs => htu (hst hs)⟩
  create := fun x s hs => hs.of_finds (finds_getOrCreateMO mm x s)
  entry := fun _ off _ hs => hs.modifyCell rfl off _
  add := fun _ off _ _ hs => hs.modifyCell rfl off _

theorem pts_mapWrites (mm : N) :
    MapWrites mm fun (s t : State N (Key N)) _ => (∀ x, t.pts x = s.pts x) ∧ t.parent = s.parent where
  composes := ⟨fun _ => ⟨fun _ => rfl, rfl⟩,
    fun hst htu => ⟨fun x => (htu.1 x).trans (hst.1 x), htu.2.trans hst.2⟩⟩
  create := fun x s =>
    ⟨(finds_getOrCreateMO mm x s).pts, (finds_getOrCreateMO mm x s).parent⟩
  entry := fun x off s => ⟨State.pts_modifyCell (mm, x) off _ s, by
    rw [State.modifyCell]
    split <;> rfl⟩
  add := fun x off p s => ⟨State.pts_modifyCell (mm, x) off _ s, by
    rw [State.addToCell, State.modifyCell]
    split <;> rfl⟩

/-- The first pointer of a set is a change. -/
theorem add_empty_report (p : Pointer N) : (PointsToSet.add p .empty).2 = true := by
  cases hreport : (PointsToSet.add p .empty).2 with
  | true => rfl
  | false => exact absurd rfl (PointsToSet.Admits.not_empty (Or.inl (PointsToSet.add_report_iff.1 hreport)))

/-- Merging reports what it alters. -/
theorem silent_mapWrites (mm : N) :
    MapWrites mm fun (s t : State N (Key N)) b => b = false → t.read = s.read where
  composes := by
    refine ⟨fun _ _ => rfl, fun hst htu h => ?_⟩
    obtain ⟨hb, hc⟩ := Bool.or_eq_false_iff.1 h
    exact (htu hc).trans (hst hb)
  create := fun x s _ => (finds_getOrCreateMO mm x s).read
  entry := by
    intro x off s _
    funext pl
    cases pl with
    | node y => exact State.pts_modifyCell (mm, x) off _ s y
    | cell k off' =>
        show (State.modifyCell (mm, x) off Step.skip s).1.cell k off' = s.cell k off'
        cases ho : s.objects (mm, x) with
        | none => rw [State.modifyCell_of_none ho]
        | some o =>
            rw [State.cell_modifyCell (by rw [ho]; rfl)]
            split
            · next heq =>
                obtain ⟨rfl, rfl⟩ := heq
                rfl
            · rfl
  add := by
    intro x off p s h
    exact (State.silent_modifyCell (fun _ => PointsToSet.add_of_report) (add_empty_report p) (mm, x)
      off s h).read

omit [DecidableEq N] in
/-- One of the pointers that lead to `p`: itself, its target at the unknown offset, or the unknown
pointer. -/
theorem admits_of_covers {S T : PointsToSet N} (h : ∀ q ∈ S, T.Covers q) {p : Pointer N}
    (hp : S.Admits p) : T.Admits p := by
  obtain (hp | hp) | hp := hp
  · exact Or.inl (h p hp)
  · exact Or.inl (Or.inr ((h _ hp).elim id id))
  · exact Or.inr ((h _ hp).elim id id)

omit [DecidableEq N] in
/-- Where a pointer is admitted there is an entry, and an object. -/
theorem exists_of_admits {s : State N (Key N)} {k : Key N} {off : Offset} {p : Pointer N}
    (h : (s.cell k off).Admits p) : off ∈ s.offsets k ∧ (s.objects k).isSome = true := by
  have hnot : s.cell k off ≠ .empty := fun heq => h.not_empty (heq ▸ rfl)
  constructor
  · by_contra hoff
    exact hnot (State.cell_of_not_mem hoff)
  · cases ho : s.objects k with
    | none => exact absurd (by simp [State.cell, ho]) hnot
    | some o => rfl

theorem le_mergeEntry (mm pm : N) (x : PSNode N) (overwritten : Option (PointsToSet N))
    (off : Offset) (s : State N (Key N)) : s.Le (mergeEntry mm pm x overwritten off s).1 :=
  ((rises_mapWrites mm).mergeEntry pm x overwritten off s).le

/-- An entry that is not overwritten is merged. -/
theorem admits_mergeEntry {mm pm : N} {x : PSNode N} {overwritten : Option (PointsToSet N)}
    {off : Offset} {s : State N (Key N)} {p : Pointer N}
    (hmm : (s.objects (mm, x)).isSome = true) (hp : (s.cell (pm, x) off).Admits p)
    (hnot : ¬ (overwritten.any fun S => S.has ⟨x, off⟩) = true) :
    ((mergeEntry mm pm x overwritten off s).1.cell (mm, x) off).Admits p := by
  rw [mergeEntry, if_neg hnot]
  have hle : s.Le (State.modifyCell (mm, x) off Step.skip s).1 :=
    State.Rises.le ((rises_mapWrites mm).entry x off s)
  have hadd : ∀ (q : Pointer N) (t : State N (Key N)),
      State.Le t (State.addToCell (mm, x) off q t).1 := fun q t =>
    (State.rises_modifyCell (State.setRises_add q) (mm, x) off t).le
  refine admits_of_covers (fun q hq => ?_) hp
  refine each_establishes hadd
    (P := fun t => (t.cell (mm, x) off).Covers q)
    (fun ht => PointsToSet.Grows.covers (ht.read (.cell (mm, x) off))) hq fun t ht => ?_
  rw [State.addToCell, State.cell_modifyCell ((hle.trans ht).objects _ hmm), if_pos ⟨rfl, rfl⟩]
  exact PointsToSet.covers_add q _

/-- **Merging takes over what is not overwritten.** -/
theorem admits_mergeMaps (order : KeyOrder N) {mm pm : N} {x : PSNode N}
    {overwritten : Option (PointsToSet N)} {off : Offset} {s : State N (Key N)} {p : Pointer N}
    (hp : (s.cell (pm, x) off).Admits p)
    (hnot : ¬ (overwritten.any fun S => S.has ⟨x, off⟩) = true) :
    ((mergeMaps order mm pm overwritten s).1.cell (mm, x) off).Admits p := by
  have hmono : ∀ {k : Key N} {s t : State N (Key N)}, s.Le t → (s.cell k off).Admits p →
      (t.cell k off).Admits p := fun h hs => PointsToSet.Admits.mono (h.read (.cell _ off)) hs
  refine each_establishes (fun x t => ((rises_mapWrites mm).mergeTarget pm overwritten x t).le)
    (P := fun t => (t.cell (mm, x) off).Admits p) hmono (order.complete x) fun t ht => ?_
  have hpt := hmono ht hp
  rw [mergeTarget, if_pos (exists_of_admits hpt).2, mergeObjects]
  have hcreate := finds_getOrCreateMO mm x t
  have hpt' := hmono hcreate.rises hpt
  refine each_establishes (fun off t => le_mergeEntry mm pm x overwritten off t)
    (P := fun t => (t.cell (mm, x) off).Admits p) hmono (exists_of_admits hpt').1 fun u hu => ?_
  apply admits_mergeEntry (hu.objects _ _) (hmono hu hpt') hnot
  exact hcreate.isSome _ (List.mem_singleton_self _)

/-! ## What one node does -/

variable {G : PointerGraph N} {order : KeyOrder N} {opts : PointerAnalysisOptions}

omit [DecidableEq N] in
/-- A node that shares its map has one predecessor, and writes to no memory. -/
theorem exists_predecessor {n : N} (h : needsMerge G n = false) : ∃ p, G.predecessors n = [p] := by
  unfold needsMerge at h
  split at h
  · next p hp => exact ⟨p, hp⟩
  · cases h

omit [DecidableEq N] in
theorem needsMerge_store {n : N} {value address : PSNode N} (h : G.kind n = .store value address) :
    needsMerge G n = true := by
  unfold needsMerge
  split
  · simp [h, canChangeMM]
  · rfl

omit [DecidableEq N] in
theorem needsMerge_memcpy {n : N} {src dest : PSNode N} {len : Offset}
    (h : G.kind n = .memcpy src dest len) : needsMerge G n = true := by
  unfold needsMerge
  split
  · simp [h, canChangeMM]
  · rfl

/-- **Before a node is processed** it gets a map, unless it has one. -/
theorem beforeProcessed_cases (order : KeyOrder N) (n : N) (s : MapState N) :
    ((s.data n).isSome = true ∧ beforeProcessed G order n s = (s, false)) ∨
    (s.data n = none ∧ (beforeProcessed G order n s).2 = true ∧
      ((needsMerge G n = true ∧
        (beforeProcessed G order n s).1.data = Function.update s.data n (some n) ∧
        (beforeProcessed G order n s).1.state = if n = G.root then
          (mergeGlobalsState G order (Function.update s.data n (some n)) n s.state).1 else s.state) ∨
      (needsMerge G n = false ∧ ∃ p, G.predecessors n = [p] ∧
        (beforeProcessed G order n s).1 =
          { s with data := Function.update s.data n (s.data p) }))) := by
  unfold beforeProcessed
  split
  · next mm hmm => exact Or.inl ⟨by rw [hmm]; rfl, rfl⟩
  · next hnone =>
      right
      refine ⟨hnone, ?_⟩
      by_cases hmerge : needsMerge G n = true
      · rw [if_pos hmerge]
        simp only []
        split
        · exact ⟨rfl, Or.inl ⟨hmerge, rfl, rfl⟩⟩
        · exact ⟨rfl, Or.inl ⟨hmerge, rfl, rfl⟩⟩
      · rw [if_neg hmerge]
        have hmerge : needsMerge G n = false := by simpa using hmerge
        obtain ⟨p, hp⟩ := exists_predecessor hmerge
        rw [hp]
        exact ⟨rfl, Or.inr ⟨hmerge, p, rfl, rfl⟩⟩

theorem data_beforeProcessed_of_ne {m n : N} (h : m ≠ n) (s : MapState N) :
    (beforeProcessed G order n s).1.data m = s.data m := by
  obtain ⟨-, heq⟩ | ⟨-, -, ⟨-, hdata, -⟩ | ⟨-, p, -, heq⟩⟩ :=
    beforeProcessed_cases (G := G) order n s
  · rw [heq]
  · rw [hdata, Function.update_of_ne h]
  · rw [heq]
    exact Function.update_of_ne h _ _

/-- A relation that merging maps into the map of the node meets. -/
theorem meets_beforeProcessed (order : KeyOrder N)
    {R : State N (Key N) → State N (Key N) → Bool → Prop} {n : N} (hR : MapWrites n R)
    (s : MapState N) :
    ∃ b, R s.state (beforeProcessed G order n s).1.state b := by
  obtain ⟨-, heq⟩ | ⟨-, -, ⟨-, -, hstate⟩ | ⟨-, p, -, heq⟩⟩ :=
    beforeProcessed_cases (G := G) order n s
  · exact ⟨false, by rw [heq]; exact hR.composes.skip s.state⟩
  · rw [hstate]
    split
    · exact ⟨_, hR.mergeGlobalsState G order _ s.state⟩
    · exact ⟨false, hR.composes.skip s.state⟩
  · exact ⟨false, by rw [heq]; exact hR.composes.skip s.state⟩

section Step

variable [Fintype N]

theorem data_step (n : N) (s : MapState N) :
    (step G order opts n s).1.data = (beforeProcessed G order n s).1.data := by
  show (afterProcessed G order n (process G opts n (beforeProcessed G order n s).1).1).1.data = _
  unfold afterProcessed
  split
  · rfl
  · split
    · rfl
    · rfl

theorem data_step_of_ne {m n : N} (h : m ≠ n) (s : MapState N) :
    (step G order opts n s).1.data m = s.data m := by
  rw [data_step]
  exact data_beforeProcessed_of_ne h s

/-- A map is never replaced. -/
theorem data_step_of_some {m mm : N} (n : N) {s : MapState N} (h : s.data m = some mm) :
    (step G order opts n s).1.data m = some mm := by
  by_cases hm : m = n
  · subst hm
    rw [data_step]
    obtain ⟨-, heq⟩ | ⟨hnone, -⟩ := beforeProcessed_cases (G := G) order m s
    · rw [heq]
      exact h
    · rw [hnone] at h
      cases h
  · rw [data_step_of_ne hm]
    exact h

/-- The maps of the predecessors are merged into that of the node. -/
theorem meets_afterProcessed (order : KeyOrder N)
    {R : State N (Key N) → State N (Key N) → Bool → Prop} {n : N} (s : MapState N)
    (hskip : ∀ s, R s s false)
    (hR : ∀ mm, s.data n = some mm → needsMerge G n = true → MapWrites mm R) :
    R s.state (afterProcessed G order n s).1.state (afterProcessed G order n s).2 := by
  unfold afterProcessed
  split
  · exact hskip s.state
  · next mm hmm =>
      split
      · next hmerge =>
          exact Step.Meets.each (hR mm hmm hmerge).composes
            (fun p _ t => (hR mm hmm hmerge).mergeMapOf order s.data _ p t) s.state
      · exact hskip s.state

omit [Fintype N] in
theorem le_beforeProcessed (n : N) (s : MapState N) :
    s.state.Le (beforeProcessed G order n s).1.state := by
  obtain ⟨b, h⟩ := meets_beforeProcessed (G := G) order (rises_mapWrites n) s
  exact h.le

omit [Fintype N] in
theorem le_process (n : N) (s : MapState N) : s.state.Le (process G opts n s).1.state :=
  ((memory G s.data).rises_processNode opts n s.state).le

theorem le_afterProcessed (n : N) (s : MapState N) :
    s.state.Le (afterProcessed G order n s).1.state := by
  have h := meets_afterProcessed (G := G) order (n := n) s (R := State.Rises)
    State.Rises.composes.skip (fun mm _ _ => rises_mapWrites mm)
  exact h.le

/-- **States only grow.** -/
theorem le_step (n : N) (s : MapState N) : s.state.Le (step G order opts n s).1.state :=
  (le_beforeProcessed n s).trans ((le_process n _).trans (le_afterProcessed n _))

/-- A node that reports nothing has a map, and neither processing it nor merging reports. -/
theorem step_of_report {n : N} {s : MapState N} (h : (step G order opts n s).2 = false) :
    (∃ mm, s.data n = some mm) ∧ (process G opts n s).2 = false ∧
      (afterProcessed G order n (process G opts n s).1).2 = false ∧
      (step G order opts n s).1 = (afterProcessed G order n (process G opts n s).1).1 := by
  obtain ⟨hbefore, hrest⟩ := Bool.or_eq_false_iff.1 h
  obtain ⟨hsome, heq⟩ | ⟨-, htrue, -⟩ := beforeProcessed_cases (G := G) order n s
  · obtain ⟨hprocess, hafter⟩ := Bool.or_eq_false_iff.1 hrest
    rw [heq] at hprocess hafter
    refine ⟨Option.isSome_iff_exists.1 hsome, hprocess, hafter, ?_⟩
    show (afterProcessed G order n (process G opts n (beforeProcessed G order n s).1).1).1 = _
    rw [heq]
  · rw [htrue] at hbefore
    cases hbefore

/-- **A node that reports nothing alters nothing** that can be read. -/
theorem read_step_of_report {n : N} {s : MapState N} (h : (step G order opts n s).2 = false) :
    (step G order opts n s).1.state.read = s.state.read ∧
      (process G opts n s).1.state.read = s.state.read ∧
      (step G order opts n s).1.data = s.data := by
  obtain ⟨⟨mm, hmm⟩, hprocess, hafter, heq⟩ := step_of_report h
  have hread : (process G opts n s).1.state.read = s.state.read :=
    ((memory G s.data).sameMemory_of_report opts n s.state hprocess).read
  refine ⟨?_, hread, ?_⟩
  · rw [heq]
    have hmeets := meets_afterProcessed (G := G) order (n := n)
      (process G opts n s).1 (R := fun s t b => b = false → t.read = s.read)
      (fun _ _ => rfl) (fun mm _ _ => silent_mapWrites mm)
    exact (hmeets hafter).trans hread
  · rw [data_step]
    obtain ⟨-, heq⟩ | ⟨hnone, -⟩ := beforeProcessed_cases (G := G) order n s
    · rw [heq]
    · rw [hnone] at hmm
      cases hmm

/-- The node changes the set of no other node. -/
theorem pts_step_of_ne {m n : N} (h : m ≠ n) (s : MapState N) :
    (step G order opts n s).1.state.pts (.node m) = s.state.pts (.node m) := by
  obtain ⟨b, hbefore, -⟩ := meets_beforeProcessed (G := G) order (pts_mapWrites n) s
  have hprocess := (memory G (beforeProcessed G order n s).1.data).pts_processNode_of_ne opts h
    (beforeProcessed G order n s).1.state
  have hafter := meets_afterProcessed (G := G) order (n := n)
    (process G opts n (beforeProcessed G order n s).1).1
    (R := fun s t _ => (∀ x, t.pts x = s.pts x) ∧ t.parent = s.parent)
    (fun _ => ⟨fun _ => rfl, rfl⟩) (fun mm _ _ => pts_mapWrites mm)
  exact (hafter.1 _).trans (hprocess.trans (hbefore _))

/-- A node that needs a map of its own has no other. -/
def OwnMaps (G : PointerGraph N) (s : MapState N) : Prop :=
  ∀ n mm, s.data n = some mm → needsMerge G n = true → mm = n

omit [Fintype N] in
theorem ownMaps_beforeProcessed (order : KeyOrder N) {s : MapState N} (h : OwnMaps G s) (n : N) :
    OwnMaps G (beforeProcessed G order n s).1 := by
  intro m mm hmm hmerge
  obtain ⟨-, heq⟩ | ⟨-, -, ⟨-, hdata, -⟩ | ⟨hshare, p, -, heq⟩⟩ :=
    beforeProcessed_cases (G := G) order n s
  · rw [heq] at hmm
    exact h m mm hmm hmerge
  · rw [hdata] at hmm
    by_cases hm : m = n
    · subst hm
      rw [Function.update_self, Option.some.injEq] at hmm
      exact hmm.symm
    · rw [Function.update_of_ne hm] at hmm
      exact h m mm hmm hmerge
  · rw [heq] at hmm
    by_cases hm : m = n
    · subst hm
      rw [hshare] at hmerge
      cases hmerge
    · have hmm : Function.update s.data n (s.data p) m = some mm := hmm
      rw [Function.update_of_ne hm] at hmm
      exact h m mm hmm hmerge

/-- **A node changes the contents of no other map** than its own. -/
theorem cell_step_of_ne {o n : N} (h : o ≠ n) {s : MapState N} (hs : OwnMaps G s) (x : PSNode N)
    (off : Offset) : (step G order opts n s).1.state.cell (o, x) off = s.state.cell (o, x) off := by
  have hown := ownMaps_beforeProcessed order hs n
  obtain ⟨b, hbefore⟩ := meets_beforeProcessed (G := G) order
    (spares_mapWrites n s.state.cell) s
  have hfinds : needsMerge G n = true →
      (memory G (beforeProcessed G order n s).1.data).FindsIn (fun k => k.1 = n) n := by
    intro hmerge p t k hk
    obtain ⟨mm, hmm, rfl⟩ := mem_getMemoryObjects G hk
    exact hown n _ hmm hmerge
  have hprocess := (memory G (beforeProcessed G order n s).1.data).spares_processNode opts
    (K := fun k => k.1 = n) (c := s.state.cell) (n := n)
    (fun _ _ hkind => hfinds (needsMerge_store hkind))
    (fun _ _ _ hkind => hfinds (needsMerge_memcpy hkind))
    (beforeProcessed G order n s).1.state (hbefore fun _ _ _ => rfl)
  have hafter := meets_afterProcessed (G := G) order (n := n)
    (process G opts n (beforeProcessed G order n s).1).1
    (R := fun s' t _ => s'.Outside (fun k => k.1 = n) s.state.cell →
      t.Outside (fun k => k.1 = n) s.state.cell) (fun _ => id)
    (fun mm hmm hmerge => by
      obtain rfl := hown n mm hmm hmerge
      exact spares_mapWrites mm s.state.cell)
  exact hafter hprocess (o, x) h off

end Step

end FS

end Cape.PointerAnalysis
