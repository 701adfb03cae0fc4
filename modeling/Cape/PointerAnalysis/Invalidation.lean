import Cape.PointerAnalysis.FlowSensitive

/-!
# Invalidated pointers

`PointerAnalysisFSInv`: FREE, INVALIDATE_OBJECT and INVALIDATE_LOCALS nodes have memory maps of their
own. Their `afterProcessed` goes through the maps of the predecessors. In every object it first
changes the entries that the map of the node has already, then merges the entries of the predecessor;
pointers to what is freed or destroyed become INVALIDATED on both ways.

What a predecessor does to one entry depends on that entry and on that of the predecessor only
(`FSInv.entry_handlePredecessor`), so that the entry after the node is a fold over the predecessors
(`FSInv.entry_handlePredecessors`). A predecessor may share the map of the node.
-/

set_option autoImplicit false

namespace Cape.Library.Step

universe u v w

variable {α : Type u} {σ : Type v} {β : Type w}

/-- A loop in which one element alone changes what is looked at. -/
theorem view_each [DecidableEq α] {v : σ → β} {I : σ → Prop} {f : α → Step σ} {g : β → β}
    {a : α} : ∀ {l : List α}, l.Nodup → (∀ b ∈ l, ∀ s, I s → I (f b s).1) →
      (∀ b ∈ l, b ≠ a → ∀ s, I s → v (f b s).1 = v s) →
      (∀ s, I s → v (f a s).1 = g (v s)) → ∀ {s : σ}, I s →
        v (each f l s).1 = if a ∈ l then g (v s) else v s := by
  intro l
  induction l with
  | nil => exact fun _ _ _ _ _ _ => (if_neg List.not_mem_nil).symm
  | cons b l ih =>
      intro hnodup hinv hother ha s hs
      obtain ⟨hb, hl⟩ := List.nodup_cons.1 hnodup
      have hrest := ih hl (fun c hc => hinv c (List.mem_cons_of_mem b hc))
        (fun c hc => hother c (List.mem_cons_of_mem b hc)) ha (hinv b List.mem_cons_self s hs)
      show v (each f l (f b s).1).1 = _
      rw [hrest]
      by_cases heq : b = a
      · subst heq
        rw [if_neg hb, if_pos List.mem_cons_self, ha s hs]
      · have hiff : a ∈ b :: l ↔ a ∈ l := by simp [Ne.symm heq]
        rw [hother b List.mem_cons_self heq s hs]
        simp only [hiff]

end Cape.Library.Step

namespace Cape.PointerAnalysis

open Cape.Library

universe u v

variable {N : Type u} [DecidableEq N]

/-! ## Entries -/

namespace State

variable {κ : Type v} [DecidableEq κ]

/-- The set at an offset of an object, if there is an entry. -/
def entry (s : State N κ) (k : κ) (off : Offset) : Option (PointsToSet N) :=
  (s.objects k).bind fun o => o.pointsTo.lookup off

omit [DecidableEq N] [DecidableEq κ] in
theorem cell_eq_entry (s : State N κ) (k : κ) (off : Offset) :
    s.cell k off = (s.entry k off).getD .empty := by
  unfold cell entry
  cases s.objects k <;> rfl

omit [DecidableEq N] [DecidableEq κ] in
theorem mem_offsets_iff {s : State N κ} {k : κ} {off : Offset} :
    off ∈ s.offsets k ↔ (s.entry k off).isSome = true := by
  unfold offsets entry
  cases s.objects k with
  | none => simp
  | some o => exact (AList.mem_keys.symm.trans AList.lookup_isSome.symm)

omit [DecidableEq N] [DecidableEq κ] in
theorem nodup_offsets (s : State N κ) (k : κ) : (s.offsets k).Nodup := by
  unfold offsets
  cases s.objects k with
  | none => exact List.nodup_nil
  | some o => exact o.pointsTo.keys_nodup

omit [DecidableEq N] in
theorem objects_modifyCell_of_ne {k k' : κ} (h : k' ≠ k) (off : Offset)
    (f : Step (PointsToSet N)) (s : State N κ) :
    (modifyCell k off f s).1.objects k' = s.objects k' := by
  rw [modifyCell]
  split
  · rfl
  · exact Function.update_of_ne h _ _

omit [DecidableEq N] [DecidableEq κ] in
theorem entry_eq_of_objects {k : κ} {s t : State N κ} (h : t.objects k = s.objects k)
    (off : Offset) : t.entry k off = s.entry k off := by
  rw [entry, entry, h]

omit [DecidableEq N] in
theorem entry_modifyCell {k : κ} {s : State N κ} (h : (s.objects k).isSome = true) (off : Offset)
    (f : Step (PointsToSet N)) (k' : κ) (off' : Offset) :
    (modifyCell k off f s).1.entry k' off' =
      if k' = k ∧ off' = off then some (f (s.cell k off)).1 else s.entry k' off' := by
  obtain ⟨o, ho⟩ := Option.isSome_iff_exists.1 h
  by_cases hk : k' = k
  · subst hk
    by_cases hoff : off' = off
    · subst hoff
      simp [modifyCell, ho, entry, cell, MemoryObject.modify, Step.within]
    · simp [modifyCell, ho, entry, MemoryObject.modify, Step.within, hoff]
  · simp [modifyCell, ho, entry, hk]

end State

namespace FSInv

open FS

variable (G : PointerGraph N)

/-! ## The nodes that invalidate -/

/-- `canInvalidateMM`. -/
def canInvalidateMM (n : N) : Bool :=
  match G.kind n with
  | .free _ | .invalidateObject _ | .invalidateLocals _ => true
  | _ => false

/-- `needsMerge`, of this class. -/
def needsMerge (n : N) : Bool := canInvalidateMM G n || FS.needsMerge G n

/-- `isInvalidTarget`. -/
def isInvalidTarget : PSNode N → Bool
  | .node _ => false
  | _ => true

/-- The pointer `(INVALIDATED, 0)`. -/
def invalidated : Pointer N := ⟨.invalidated, 0⟩

section Tests

variable [Fintype N] (parent : N → Option Nat)

/-- `isLocal`. -/
def isLocal (a n : N) : Bool := !G.isHeap a && !G.isGlobal a && parent a = parent n

/-- `knownInstance`. -/
def knownInstance (x : PSNode N) : Bool := !isOnLoop G parent x

/-- The test for the pointers that an INVALIDATE_LOCALS node removes: to a local allocation whose
instance is known. -/
def isRemovable (n : N) (p : Pointer N) : Bool :=
  match p.target with
  | .node a => G.kind a = .alloc && isLocal G parent a n && knownInstance G parent (.node a)
  | _ => false

/-- `containsRemovableLocals`. -/
def containsRemovableLocals (n : N) (S : PointsToSet N) : Bool :=
  S.pointers.any (isRemovable G parent n)

/-- `invStrongUpdate`. -/
def invStrongUpdate (operand : PointsToSet N) : Bool :=
  match operand.pointers with
  | [p] => !p.offset.isUnknown && !isInvalidTarget p.target && knownInstance G parent p.target
  | _ => false

end Tests

/-! ## The changes of a set -/

omit G in
/-- The pointers that are kept, and INVALIDATED. -/
def replaceWithInv (keep : Pointer N → Bool) (S : PointsToSet N) : PointsToSet N :=
  (PointsToSet.add invalidated (Step.each PointsToSet.add (S.pointers.filter keep) .empty).1).1

omit G in
/-- `replaceTargetWithInv`. -/
def replaceTargetWithInv (S : PointsToSet N) (target : PSNode N) : PointsToSet N :=
  replaceWithInv (fun p => p.target ≠ target) S

section Sets

variable [Fintype N] (parent : N → Option Nat)

/-- `replaceLocalsWithInv`: only pointers to allocations are kept. -/
def replaceLocalsWithInv (n : N) (S : PointsToSet N) : PointsToSet N :=
  replaceWithInv (fun p => (match p.target with
    | .node a => G.kind a = .alloc
    | _ => false) && !isRemovable G parent n p) S

/-- What `handleInvalidateLocals` does to an entry of the map. -/
def removeLocals (n : N) : Step (PointsToSet N) := fun S =>
  if containsRemovableLocals G parent n S then (replaceLocalsWithInv G parent n S, true)
  else (S, false)

omit G [Fintype N] in
/-- The weak update of an entry for one pointer of the operand. -/
def weakUpdate (p : Pointer N) : Step (PointsToSet N) := fun S =>
  if p.isNull || p.isInvalidated then (S, false)
  else if p.isUnknown || S.pointsToTarget p.target then PointsToSet.add invalidated S
  else (S, false)

/-- What `invalidateMemory` does to an entry of the map. -/
def removeFreed (operand : PointsToSet N) : Step (PointsToSet N) := fun S =>
  if invStrongUpdate G parent operand then
    match operand.pointers with
    | p :: _ =>
        if p.isUnknown then PointsToSet.add invalidated S
        else if p.isNull || p.isInvalidated then (S, false)
        else if S.pointsToTarget p.target then (replaceTargetWithInv S p.target, true)
        else (S, false)
    | [] => (S, false)
  else
    Step.each weakUpdate operand.pointers S

/-- What `handleInvalidateLocals` merges for a pointer of the predecessor. -/
def withoutLocal (n : N) (p : Pointer N) : List (Pointer N) :=
  if isRemovable G parent n p then [invalidated] else [p]

/-- What `invalidateMemory` merges for a pointer of the predecessor. -/
def withoutFreed (operand : PointsToSet N) (p : Pointer N) : List (Pointer N) :=
  if p.isValid && operand.pointsToTarget p.target then
    if invStrongUpdate G parent operand then [invalidated] else [p, invalidated]
  else [p]

end Sets

/-! ## The maps -/

section Maps

variable (order : KeyOrder N)

omit G in
/-- Merge an entry of the predecessor. -/
def mergeEntry (image : Pointer N → List (Pointer N)) (mm pm : N) (x : PSNode N) (off : Offset) :
    Step (State N (Key N)) := fun s =>
  Step.each (State.addToCell (mm, x) off) ((s.cell (pm, x) off).pointers.flatMap image) s

omit G in
/-- The objects of a target: first the entries that the map has, then those of the predecessor. -/
def handleObjects (change : Step (PointsToSet N)) (image : Pointer N → List (Pointer N)) (mm pm : N)
    (x : PSNode N) : Step (State N (Key N)) := fun s =>
  Step.andThen
    (fun s => Step.each (fun off => State.modifyCell (mm, x) off change) (s.offsets (mm, x)) s)
    (fun s => Step.each (mergeEntry image mm pm x) (s.offsets (pm, x)) s) (getOrCreateMO mm x s)

omit G in
/-- The body of the loop over the map of a predecessor. -/
def handleTarget (skipped : Option (PSNode N)) (change : Step (PointsToSet N))
    (image : Pointer N → List (Pointer N)) (mm pm : N) (x : PSNode N) :
    Step (State N (Key N)) := fun s =>
  if (s.objects (pm, x)).isSome && !isInvalidTarget x && skipped ≠ some x then
    handleObjects change image mm pm x s
  else (s, false)

omit G in
/-- The loop over the map of a predecessor. -/
def handlePredecessor (skipped : Option (PSNode N)) (change : Step (PointsToSet N))
    (image : Pointer N → List (Pointer N)) (mm pm : N) : Step (State N (Key N)) :=
  Step.each (handleTarget skipped change image mm pm) order.keys

omit G in
/-- `overwriteMOFromFree`: the object gets INVALIDATED at offset 0, and nothing else. -/
def overwriteMOFromFree (mm : N) (x : PSNode N) : Step (State N (Key N)) := fun s =>
  match (getOrCreateMO mm x s).objects (mm, x) with
  | none => (s, false)
  | some o =>
      if o.pointsTo.keys.length = 1 ∧ (o.getPointsTo 0).pointers.map Pointer.target = [.invalidated] then
        (getOrCreateMO mm x s, false)
      else
        ({ s with
            objects := Function.update (getOrCreateMO mm x s).objects (mm, x)
              (some ({ o with pointsTo := ∅ }.modify 0 (PointsToSet.add invalidated)).1) }, true)

variable [Fintype N]

/-- `handleInvalidateLocals` for one predecessor. -/
def handleInvalidateLocals (parent : N → Option Nat) (n mm pm : N) : Step (State N (Key N)) :=
  handlePredecessor order none (removeLocals G parent n) (withoutLocal G parent n) mm pm

/-- `invalidateMemory` for one predecessor. -/
def invalidateMemory (parent : N → Option Nat) (operand : PointsToSet N)
    (strongUpdate : Option (PSNode N)) (mm pm : N) : Step (State N (Key N)) :=
  Step.andThen
    (match strongUpdate with
      | none => Step.skip
      | some x => overwriteMOFromFree mm x)
    (handlePredecessor order strongUpdate (removeFreed G parent operand)
      (withoutFreed G parent operand) mm pm)

/-- `stripCasts`; `none` when the fuel is spent. -/
def stripCasts : Nat → PSNode N → Option (PSNode N)
  | 0, _ => none
  | fuel + 1, .node n =>
      match G.kind n with
      | .cast op => stripCasts fuel op
      | _ => some (.node n)
  | _ + 1, x => some x

/-- `moFromFreeToOverwrite`; `none` when the fuel is spent. -/
def moFromFreeToOverwrite (fuel : Nat) (s : State N (Key N)) (operand : PSNode N) :
    Option (Option (PSNode N)) :=
  if (s.pts operand).isEmpty then some none
  else
    (stripCasts G fuel operand).map fun x =>
      match x with
      | .node n =>
          match G.kind n with
          | .load loadOp =>
              if invStrongUpdate G s.parent (s.pts loadOp) then
                (s.pts loadOp).pointers.head?.map Pointer.target
              else none
          | _ => none
      | _ => none

/-- The memory maps of the predecessors that were processed. -/
def predecessorMaps (s : MapState N) (n : N) : List N := (G.predecessors n).filterMap s.data

/-- `afterProcessed`. The sets of the nodes and the parents do not change on the way. `none`: the node
has no memory map, which the source asserts, or the fuel is spent. -/
def afterProcessed (fuel : Nat) (n : N) (s : MapState N) : Option (MapState N × Bool) :=
  (s.data n).bind fun mm =>
    match G.kind n with
    | .invalidateLocals _ => some (onState
        (Step.each (handleInvalidateLocals G order s.state.parent n mm) (predecessorMaps G s n)) s)
    | .invalidateObject operand => some (onState
        (Step.each (invalidateMemory G order s.state.parent (s.state.pts operand) none mm)
          (predecessorMaps G s n)) s)
    | .free operand =>
        (moFromFreeToOverwrite G fuel s.state operand).map fun strongUpdate => onState
          (Step.each (invalidateMemory G order s.state.parent (s.state.pts operand) strongUpdate mm)
            (predecessorMaps G s n)) s
    | _ => some (FS.afterProcessed G order n s)

variable (opts : PointerAnalysisOptions)

omit [Fintype N] in
/-- `beforeProcessed`: overridden, as it asks `needsMerge` of this class. -/
def beforeProcessed (n : N) : Step (MapState N) := fun s =>
  match s.data n with
  | some _ => (s, false)
  | none =>
      if needsMerge G n then
        let s' : MapState N := { s with data := Function.update s.data n (some n) }
        if n = G.root then ((onState (mergeGlobalsState G order s'.data n) s').1, true)
        else (s', true)
      else
        match G.predecessors n with
        | p :: _ => ({ s with data := Function.update s.data n (s.data p) }, true)
        | [] => (s, true)

/-- One node. `none` as for `afterProcessed`. -/
def step (fuel : Nat) (n : N) (s : MapState N) : Option (MapState N × Bool) :=
  let before := beforeProcessed G order n s
  let processed := process G opts n before.1
  (afterProcessed G order fuel n processed.1).map fun after =>
    (after.1, before.2 || (processed.2 || after.2))

end Maps

/-! ## What one predecessor does to an entry -/

section Entries

omit G

/-- The entry after pointers were added to it. -/
def addAll (l : List (Pointer N)) (e : Option (PointsToSet N)) : Option (PointsToSet N) :=
  l.foldl (fun e p => some (PointsToSet.add p (e.getD .empty)).1) e

theorem objects_getOrCreateMO {mm : N} {x : PSNode N} {k : Key N} (h : k ≠ (mm, x))
    (s : State N (Key N)) : (getOrCreateMO mm x s).objects k = s.objects k := by
  rw [getOrCreateMO]
  split
  · rfl
  · exact Function.update_of_ne h _ _

theorem isSome_getOrCreateMO (mm : N) (x : PSNode N) (s : State N (Key N)) :
    ((getOrCreateMO mm x s).objects (mm, x)).isSome = true :=
  (finds_getOrCreateMO mm x s).isSome _ (List.mem_singleton_self _)

/-- A new object has no entries. -/
theorem entry_getOrCreateMO (mm : N) (x : PSNode N) (s : State N (Key N)) (k : Key N)
    (off : Offset) : (getOrCreateMO mm x s).entry k off = s.entry k off := by
  by_cases hk : k = (mm, x)
  · subst hk
    rw [getOrCreateMO]
    split
    · rfl
    · next ho => simp [State.entry, ho, MemoryObject.create]
  · exact State.entry_eq_of_objects (objects_getOrCreateMO hk s) off

theorem entry_addToCells {k : Key N} {off : Offset} :
    ∀ (l : List (Pointer N)) {s : State N (Key N)}, (s.objects k).isSome = true →
      ∀ off', (Step.each (State.addToCell k off) l s).1.entry k off' =
        if off' = off then addAll l (s.entry k off) else s.entry k off' := by
  intro l
  induction l with
  | nil =>
      intro s _ off'
      show s.entry k off' = _
      split
      · next heq => rw [heq]; rfl
      · rfl
  | cons p l ih =>
      intro s hs off'
      show (Step.each (State.addToCell k off) l (State.addToCell k off p s).1).1.entry k off' = _
      have hentry := State.entry_modifyCell hs off (PointsToSet.add p) k
      have hs' : ((State.addToCell k off p s).1.objects k).isSome = true :=
        State.isSome_modifyCell k off _ hs
      rw [ih hs']
      split
      · rw [State.addToCell, hentry, if_pos ⟨rfl, rfl⟩, State.cell_eq_entry]
        rfl
      · next hne => rw [State.addToCell, hentry, if_neg fun h => hne h.2]

variable (change : Step (PointsToSet N)) (image : Pointer N → List (Pointer N))

/-- What the map `pm` does to an entry of the map `mm`, when it has the object. -/
def mergedFrom (s : State N (Key N)) (mm pm : N) (x : PSNode N) (off : Offset)
    (e : Option (PointsToSet N)) : Option (PointsToSet N) :=
  let e' := e.map fun S => (change S).1
  let source := if pm = mm then e'.getD .empty else s.cell (pm, x) off
  addAll (source.pointers.flatMap image) e'

theorem objects_handleObjects {mm pm : N} {x : PSNode N} {k : Key N} (h : k ≠ (mm, x))
    (s : State N (Key N)) : (handleObjects change image mm pm x s).1.objects k = s.objects k := by
  have hmodify : ∀ off f (t : State N (Key N)), t.objects k = s.objects k →
      (State.modifyCell (mm, x) off f t).1.objects k = s.objects k := fun off f t ht =>
    (State.objects_modifyCell_of_ne h off f t).trans ht
  refine Step.each_keeps (P := fun t : State N (Key N) => t.objects k = s.objects k) (fun off _ t ht => ?_) ?_
  · exact Step.each_keeps (P := fun t : State N (Key N) => t.objects k = s.objects k)
      (fun p _ t ht => hmodify off _ t ht) ht
  · refine Step.each_keeps (P := fun t : State N (Key N) => t.objects k = s.objects k)
      (fun off _ t ht => hmodify off _ t ht) ?_
    exact objects_getOrCreateMO h s

theorem isSome_handleObjects (mm pm : N) (x : PSNode N) (s : State N (Key N)) :
    ((handleObjects change image mm pm x s).1.objects (mm, x)).isSome = true := by
  refine Step.each_keeps (P := fun t : State N (Key N) => (t.objects (mm, x)).isSome = true)
    (fun off _ t ht => ?_) ?_
  · exact Step.each_keeps (P := fun t : State N (Key N) => (t.objects (mm, x)).isSome = true)
      (fun p _ t ht => State.isSome_modifyCell _ _ _ ht) ht
  · refine Step.each_keeps (P := fun t : State N (Key N) => (t.objects (mm, x)).isSome = true)
      (fun off _ t ht => State.isSome_modifyCell _ _ _ ht) ?_
    exact isSome_getOrCreateMO mm x s

/-- The entries that the map has are changed. -/
theorem entry_changed {k : Key N} {s : State N (Key N)} (hs : (s.objects k).isSome = true)
    (off : Offset) :
    (Step.each (fun off => State.modifyCell k off change) (s.offsets k) s).1.entry k off =
      (s.entry k off).map fun S => (change S).1 := by
  have hloop := Step.view_each (v := fun t : State N (Key N) => t.entry k off)
    (I := fun t => (t.objects k).isSome = true) (f := fun off => State.modifyCell k off change)
    (g := fun e => some (change (e.getD .empty)).1) (a := off) (State.nodup_offsets s k)
    (fun off' _ t ht => State.isSome_modifyCell _ _ _ ht)
    (fun off' _ hne t ht => by
      rw [State.entry_modifyCell ht, if_neg fun h => hne h.2.symm])
    (fun t ht => by
      rw [State.entry_modifyCell ht, if_pos ⟨rfl, rfl⟩, State.cell_eq_entry]) hs
  rw [hloop]
  cases he : s.entry k off with
  | none =>
      rw [if_neg]
      · rfl
      · rw [State.mem_offsets_iff, he]
        simp
  | some S =>
      rw [if_pos]
      · rfl
      · rw [State.mem_offsets_iff, he]
        rfl

theorem entry_handleObjects (mm pm : N) (x : PSNode N) (off : Offset) (s : State N (Key N)) :
    (handleObjects change image mm pm x s).1.entry (mm, x) off =
      mergedFrom change image s mm pm x off (s.entry (mm, x) off) := by
  let t := (Step.each (fun off => State.modifyCell (mm, x) off change)
    ((getOrCreateMO mm x s).offsets (mm, x)) (getOrCreateMO mm x s)).1
  have hentry : t.entry (mm, x) off = (s.entry (mm, x) off).map fun S => (change S).1 := by
    rw [entry_changed change (isSome_getOrCreateMO mm x s), entry_getOrCreateMO]
  -- the object of another map stays as it is
  let inv : State N (Key N) → Prop := fun u =>
    (u.objects (mm, x)).isSome = true ∧ (pm ≠ mm → u.objects (pm, x) = s.objects (pm, x))
  have hne : pm ≠ mm → (pm, x) ≠ (mm, x) := fun hpm h => hpm (congrArg Prod.fst h)
  have hkeeps : ∀ off f u, inv u → inv (State.modifyCell (mm, x) off f u).1 := fun off f u hu =>
    ⟨State.isSome_modifyCell _ _ _ hu.1,
      fun hpm => (State.objects_modifyCell_of_ne (hne hpm) off f u).trans (hu.2 hpm)⟩
  have ht : inv t := Step.each_keeps (fun off _ u hu => hkeeps off change u hu)
    ⟨isSome_getOrCreateMO mm x s, fun hpm => objects_getOrCreateMO (hne hpm) s⟩
  let source : Option (PointsToSet N) → PointsToSet N := fun e =>
    if pm = mm then e.getD .empty else s.cell (pm, x) off
  have hsource : ∀ u, inv u → u.cell (pm, x) off = source (u.entry (mm, x) off) := by
    intro u hu
    by_cases hpm : pm = mm
    · simp only [source, if_pos hpm]
      rw [hpm, State.cell_eq_entry]
    · simp only [source, if_neg hpm]
      rw [State.cell, State.cell, hu.2 hpm]
  have hloop := Step.view_each (v := fun u : State N (Key N) => u.entry (mm, x) off)
    (I := inv) (f := mergeEntry image mm pm x)
    (g := fun e => addAll ((source e).pointers.flatMap image) e) (a := off)
    (State.nodup_offsets t (pm, x))
    (fun off' _ u hu => Step.each_keeps (fun p _ v hv => hkeeps off' _ v hv) hu)
    (fun off' _ hoff u hu => by
      rw [mergeEntry, entry_addToCells _ hu.1, if_neg (Ne.symm hoff)])
    (fun u hu => by
      rw [mergeEntry, entry_addToCells _ hu.1, if_pos rfl, hsource u hu]) ht
  show (Step.each (mergeEntry image mm pm x) (t.offsets (pm, x)) t).1.entry (mm, x) off = _
  rw [hloop, mergedFrom, ← hentry]
  split
  · rfl
  · next hoff =>
      -- without an entry there is nothing to merge
      have hempty : source (t.entry (mm, x) off) = .empty := by
        rw [← hsource t ht]
        exact State.cell_of_not_mem hoff
      show _ = addAll ((source (t.entry (mm, x) off)).pointers.flatMap image) _
      rw [hempty]
      rfl

variable (order : KeyOrder N) (skipped : Option (PSNode N))

/-- What the map `pm` does to an entry of the map `mm`. -/
def turn (s : State N (Key N)) (mm : N) (x : PSNode N) (off : Offset)
    (e : Option (PointsToSet N)) (pm : N) : Option (PointsToSet N) :=
  if pm = mm ∨ (s.objects (pm, x)).isSome = true then mergedFrom change image s mm pm x off e else e

theorem objects_handleTarget {mm pm : N} {x : PSNode N} {k : Key N} (h : k ≠ (mm, x))
    (s : State N (Key N)) :
    (handleTarget skipped change image mm pm x s).1.objects k = s.objects k := by
  rw [handleTarget]
  split
  · exact objects_handleObjects change image h s
  · rfl

/-- Other maps stay as they are. -/
theorem objects_handlePredecessor {mm pm : N} {k : Key N} (h : k.1 ≠ mm) (s : State N (Key N)) :
    (handlePredecessor order skipped change image mm pm s).1.objects k = s.objects k :=
  Step.each_keeps (P := fun t : State N (Key N) => t.objects k = s.objects k)
    (fun _ _ t ht => (objects_handleTarget change image skipped
      (fun heq => h (congrArg Prod.fst heq)) t).trans ht) rfl

theorem mergedFrom_of_none (s : State N (Key N)) (mm : N) (x : PSNode N) (off : Offset) :
    mergedFrom change image s mm mm x off none = none := by
  simp [mergedFrom, addAll, PointsToSet.empty]

theorem entry_handleTarget (mm pm y : N) (off : Offset) (s : State N (Key N)) :
    (handleTarget skipped change image mm pm (.node y) s).1.entry (mm, .node y) off =
      if skipped = some (.node y) then s.entry (mm, .node y) off
      else turn change image s mm (.node y) off (s.entry (mm, .node y) off) pm := by
  rw [handleTarget]
  by_cases hskip : skipped = some (.node y)
  · rw [if_pos hskip, if_neg (by simp [hskip])]
  · rw [if_neg hskip, turn]
    cases ho : s.objects (pm, .node y) with
    | some o =>
        rw [if_pos (by simp [isInvalidTarget, hskip]), entry_handleObjects]
        exact (if_pos (Or.inr rfl)).symm
    | none =>
        rw [if_neg (by simp)]
        split
        · next hpm =>
            -- the map of the node has no object either
            have hpm : pm = mm := by simpa using hpm
            subst hpm
            have hentry : s.entry (pm, .node y) off = none := by rw [State.entry, ho]; rfl
            rw [hentry, mergedFrom_of_none]
        · rfl

theorem turn_congr {s t : State N (Key N)} {mm pm : N} {x : PSNode N}
    (h : pm ≠ mm → t.objects (pm, x) = s.objects (pm, x)) (off : Offset)
    (e : Option (PointsToSet N)) :
    turn change image t mm x off e pm = turn change image s mm x off e pm := by
  by_cases hpm : pm = mm
  · simp [turn, mergedFrom, hpm]
  · simp [turn, mergedFrom, hpm, h hpm, State.cell]

/-- **One predecessor**, and one entry of the map. -/
theorem entry_handlePredecessor (mm pm y : N) (off : Offset) (s : State N (Key N)) :
    (handlePredecessor order skipped change image mm pm s).1.entry (mm, .node y) off =
      if skipped = some (.node y) then s.entry (mm, .node y) off
      else turn change image s mm (.node y) off (s.entry (mm, .node y) off) pm := by
  have hloop := Step.view_each (v := fun u : State N (Key N) => u.entry (mm, .node y) off)
    (I := fun u => pm ≠ mm → u.objects (pm, .node y) = s.objects (pm, .node y))
    (f := handleTarget skipped change image mm pm)
    (g := fun e => if skipped = some (.node y) then e
      else turn change image s mm (.node y) off e pm) (a := .node y) order.nodup
    (fun x _ u hu hpm => (objects_handleTarget change image skipped
      (fun h => hpm (congrArg Prod.fst h)) u).trans (hu hpm))
    (fun x _ hne u _ => State.entry_eq_of_objects (objects_handleTarget change image skipped
      (fun h => hne (congrArg Prod.snd h).symm) u) off)
    (fun u hu => by
      rw [entry_handleTarget, turn_congr change image hu]) (s := s) (fun _ => rfl)
  rw [if_pos (order.complete _)] at hloop
  exact hloop

/-! ## All predecessors -/

/-- Steps that change the map `mm` only, and an entry of it as the turns do. -/
theorem entry_each {f : N → Step (State N (Key N))} {mm : N} {x : PSNode N} {off : Offset}
    (hframe : ∀ pm s k, k.1 ≠ mm → (f pm s).1.objects k = s.objects k)
    (hentry : ∀ pm s, (f pm s).1.entry (mm, x) off =
      turn change image s mm x off (s.entry (mm, x) off) pm) :
    ∀ (l : List N) (s : State N (Key N)), (Step.each f l s).1.entry (mm, x) off =
      l.foldl (turn change image s mm x off) (s.entry (mm, x) off) := by
  intro l s
  have hkey : ∀ (l : List N) (t : State N (Key N)), (∀ k, k.1 ≠ mm → t.objects k = s.objects k) →
      (Step.each f l t).1.entry (mm, x) off =
        l.foldl (turn change image s mm x off) (t.entry (mm, x) off) := by
    intro l
    induction l with
    | nil => exact fun _ _ => rfl
    | cons pm l ih =>
        intro t ht
        show (Step.each f l (f pm t).1).1.entry (mm, x) off = _
        rw [ih _ fun k hk => (hframe pm t k hk).trans (ht k hk), hentry,
          turn_congr change image fun hpm => ht _ hpm]
        rfl
  exact hkey l s fun _ _ => rfl

end Entries

/-! ## The object that is overwritten -/

section Overwritten

omit G

theorem objects_overwriteMOFromFree {mm : N} {x : PSNode N} {k : Key N} (h : k ≠ (mm, x))
    (s : State N (Key N)) : (overwriteMOFromFree mm x s).1.objects k = s.objects k := by
  rw [overwriteMOFromFree]
  split
  · rfl
  · split
    · exact objects_getOrCreateMO h s
    · exact (Function.update_of_ne h _ _).trans (objects_getOrCreateMO h s)

/-- The entry of an object that holds INVALIDATED at offset 0 and nothing else. -/
def OnlyInvalidated (off : Offset) (e : Option (PointsToSet N)) : Prop :=
  if off = 0 then ∃ S, e = some S ∧ S.pointers.map Pointer.target = [.invalidated] else e = none

theorem entry_overwriteMOFromFree (mm : N) (x : PSNode N) (s : State N (Key N)) (off : Offset) :
    OnlyInvalidated off ((overwriteMOFromFree mm x s).1.entry (mm, x) off) := by
  obtain ⟨o, ho⟩ := Option.isSome_iff_exists.1 (isSome_getOrCreateMO mm x s)
  rw [overwriteMOFromFree, ho]
  simp only []
  split
  · next h =>
      -- the only entry is the one at offset 0
      obtain ⟨hlength, hinv⟩ := h
      obtain ⟨k, hk⟩ := List.length_eq_one_iff.1 hlength
      have hmem : ∀ off', off' ∈ o.pointsTo ↔ off' = k := by
        intro off'
        rw [AList.mem_keys, hk, List.mem_singleton]
      have hzero : (0 : Offset) ∈ o.pointsTo := by
        by_contra hnot
        have hnone : o.pointsTo.lookup 0 = none := AList.lookup_eq_none.2 hnot
        rw [MemoryObject.getPointsTo, hnone] at hinv
        cases hinv
      obtain rfl := (hmem 0).1 hzero
      obtain ⟨S, hS⟩ := Option.isSome_iff_exists.1 (AList.lookup_isSome.2 hzero)
      show OnlyInvalidated off (((getOrCreateMO mm x s).objects (mm, x)).bind _)
      rw [ho]
      by_cases hoff : off = 0
      · subst hoff
        rw [OnlyInvalidated, if_pos rfl]
        rw [MemoryObject.getPointsTo, hS] at hinv
        exact ⟨S, hS, hinv⟩
      · rw [OnlyInvalidated, if_neg hoff]
        exact AList.lookup_eq_none.2 fun h => hoff ((hmem off).1 h)
  · have hentry : ({ s with
          objects := Function.update (getOrCreateMO mm x s).objects (mm, x)
            (some ({ o with pointsTo := ∅ }.modify 0 (PointsToSet.add invalidated)).1) } :
            State N (Key N)).entry (mm, x) off =
        AList.lookup off (AList.insert 0 (PointsToSet.add invalidated .empty).1
          (∅ : AList fun _ : Offset => PointsToSet N)) := by
      rw [State.entry]
      simp only [Function.update_self, Option.bind_some]
      rfl
    show OnlyInvalidated off (State.entry _ (mm, x) off)
    rw [hentry]
    by_cases hoff : off = 0
    · subst hoff
      rw [OnlyInvalidated, if_pos rfl]
      exact ⟨_, AList.lookup_insert _, rfl⟩
    · rw [OnlyInvalidated, if_neg hoff, AList.lookup_insert_ne hoff, AList.lookup_empty]

end Overwritten

section Freed

variable [Fintype N] (order : KeyOrder N) (parent : N → Option Nat) (operand : PointsToSet N)

theorem objects_invalidateMemory {strongUpdate : Option (PSNode N)} {mm pm : N} {k : Key N}
    (h : k.1 ≠ mm) (s : State N (Key N)) :
    (invalidateMemory G order parent operand strongUpdate mm pm s).1.objects k = s.objects k := by
  refine (objects_handlePredecessor _ _ order strongUpdate h _).trans ?_
  cases strongUpdate with
  | none => rfl
  | some x => exact objects_overwriteMOFromFree (fun heq => h (congrArg Prod.fst heq)) s

/-- An entry of an object that is not overwritten. -/
theorem entry_invalidateMemory {strongUpdate : Option (PSNode N)} {mm pm y : N} {off : Offset}
    (h : strongUpdate ≠ some (.node y)) (s : State N (Key N)) :
    (invalidateMemory G order parent operand strongUpdate mm pm s).1.entry (mm, .node y) off =
      turn (removeFreed G parent operand) (withoutFreed G parent operand) s mm (.node y) off
        (s.entry (mm, .node y) off) pm := by
  have hkey : ∀ t : State N (Key N), (∀ k, k ≠ (mm, .node y) → k.1 = mm ∨ t.objects k = s.objects k) →
      t.objects (mm, .node y) = s.objects (mm, .node y) →
      (handlePredecessor order strongUpdate (removeFreed G parent operand)
        (withoutFreed G parent operand) mm pm t).1.entry (mm, .node y) off =
        turn (removeFreed G parent operand) (withoutFreed G parent operand) s mm (.node y) off
          (s.entry (mm, .node y) off) pm := by
    intro t hother hsame
    rw [entry_handlePredecessor, if_neg h, State.entry_eq_of_objects hsame]
    apply turn_congr
    intro hpm
    exact (hother (pm, .node y) fun heq => hpm (congrArg Prod.fst heq)).resolve_left hpm
  cases strongUpdate with
  | none => exact hkey s (fun _ _ => Or.inr rfl) rfl
  | some x =>
      have hne : (mm, PSNode.node y) ≠ (mm, x) := fun heq =>
        h (congrArg some (congrArg Prod.snd heq).symm)
      refine hkey (overwriteMOFromFree mm x s).1 (fun k _ => ?_)
        (objects_overwriteMOFromFree hne s)
      by_cases hk : k.1 = mm
      · exact Or.inl hk
      · exact Or.inr (objects_overwriteMOFromFree (fun heq => hk (congrArg Prod.fst heq)) s)

/-- The object that is overwritten. -/
theorem entry_invalidateMemory_overwritten {mm pm y : N} (off : Offset) (s : State N (Key N)) :
    OnlyInvalidated off ((invalidateMemory G order parent operand (some (.node y)) mm pm s).1.entry
      (mm, .node y) off) := by
  have hkeep : ∀ t : State N (Key N), (handlePredecessor order (some (.node y))
      (removeFreed G parent operand) (withoutFreed G parent operand) mm pm t).1.entry
        (mm, .node y) off = t.entry (mm, .node y) off := fun t => by
    rw [entry_handlePredecessor, if_pos rfl]
  show OnlyInvalidated off ((handlePredecessor order (some (.node y)) (removeFreed G parent operand)
    (withoutFreed G parent operand) mm pm (overwriteMOFromFree mm (.node y) s).1).1.entry
      (mm, .node y) off)
  rw [hkeep]
  exact entry_overwriteMOFromFree mm (.node y) s off

end Freed

end FSInv

end Cape.PointerAnalysis
