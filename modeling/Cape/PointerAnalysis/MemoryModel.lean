import Cape.PointerAnalysis.Elementary

/-!
# What the writes change

Every write changes one place. A memory model is a way to get memory objects that at most creates
empty ones, so that getting objects changes nothing that can be read.

`MemoryModel.rises_processNode`: processing a node takes nothing away but known offsets below an
unknown one, and what it reports is a strict growth.
-/

set_option autoImplicit false

namespace Cape.PointerAnalysis

open Cape.Library

universe u v

variable {N : Type u} {κ : Type v}

instance [Finite N] [Finite κ] : Finite (Place N κ) :=
  Finite.of_injective
    (fun x : Place N κ => match x with
      | .node x => Sum.inl x
      | .cell k off => Sum.inr (k, off))
    (by rintro (a | ⟨a, o⟩) (b | ⟨b, o'⟩) h <;> simp_all)

/-! ## Reading after a write -/

theorem MemoryObject.getPointsTo_modify (o : MemoryObject N) (off off' : Offset)
    (f : Step (PointsToSet N)) :
    (o.modify off f).1.getPointsTo off' =
      if off' = off then (f (o.getPointsTo off)).1 else o.getPointsTo off' := by
  by_cases h : off' = off
  · subst h
    simp [MemoryObject.modify, Step.within, MemoryObject.getPointsTo]
  · simp [MemoryObject.modify, Step.within, MemoryObject.getPointsTo, h, AList.lookup_insert_ne]

@[simp] theorem MemoryObject.getPointsTo_create (x : PSNode N) (off : Offset) :
    (MemoryObject.create x).getPointsTo off = .empty := rfl

namespace State

section Nodes

variable [DecidableEq N]

theorem pts_modifyNode (n : N) (f : Step (PointsToSet N)) (s : State N κ) (x : PSNode N) :
    (modifyNode n f s).1.pts x = if x = .node n then (f (s.pts x)).1 else s.pts x := by
  cases x with
  | node m =>
      by_cases h : m = n
      · subst h
        simp [modifyNode, Step.within, pts]
      · simp [modifyNode, Step.within, pts, h]
  | nullptr => rfl
  | unknownMemory => rfl
  | invalidated => rfl

@[simp] theorem cell_modifyNode (n : N) (f : Step (PointsToSet N)) (s : State N κ) (k : κ)
    (off : Offset) : (modifyNode n f s).1.cell k off = s.cell k off := rfl

@[simp] theorem report_modifyNode (n : N) (f : Step (PointsToSet N)) (s : State N κ) :
    (modifyNode n f s).2 = (f (s.pts (.node n))).2 := rfl

end Nodes

section Cells

variable [DecidableEq κ]

@[simp] theorem pts_modifyCell (k : κ) (off : Offset) (f : Step (PointsToSet N)) (s : State N κ)
    (x : PSNode N) : (modifyCell k off f s).1.pts x = s.pts x := by
  rw [modifyCell]
  split
  · rfl
  · cases x <;> rfl

theorem modifyCell_of_none {k : κ} {s : State N κ} (h : s.objects k = none) (off : Offset)
    (f : Step (PointsToSet N)) : modifyCell k off f s = (s, false) := by
  rw [modifyCell]
  rw [h]

theorem cell_modifyCell {k : κ} {s : State N κ} (h : (s.objects k).isSome = true)
    (off : Offset) (f : Step (PointsToSet N)) (k' : κ) (off' : Offset) :
    (modifyCell k off f s).1.cell k' off' =
      if k' = k ∧ off' = off then (f (s.cell k off)).1 else s.cell k' off' := by
  obtain ⟨o, ho⟩ := Option.isSome_iff_exists.1 h
  by_cases hk : k' = k
  · subst hk
    simp only [cell, modifyCell, ho, Function.update_self, Option.elim_some, true_and]
    exact o.getPointsTo_modify off off' f
  · simp [cell, modifyCell, ho, hk]

theorem report_modifyCell {k : κ} {s : State N κ} (h : (s.objects k).isSome = true)
    (off : Offset) (f : Step (PointsToSet N)) :
    (modifyCell k off f s).2 = (f (s.cell k off)).2 := by
  obtain ⟨o, ho⟩ := Option.isSome_iff_exists.1 h
  simp [modifyCell, ho, cell, MemoryObject.modify, Step.within]

theorem mem_offsets_modifyCell {k : κ} {off : Offset} {f : Step (PointsToSet N)} {s : State N κ}
    {k' : κ} {off' : Offset} (h : off' ∈ (modifyCell k off f s).1.offsets k') :
    off' ∈ s.offsets k' ∨ (k' = k ∧ off' = off) := by
  cases ho : s.objects k with
  | none =>
      rw [modifyCell_of_none ho] at h
      exact Or.inl h
  | some o =>
      by_cases hk : k' = k
      · subst hk
        have h : off' ∈ (o.modify off f).1.pointsTo := by
          rw [AList.mem_keys]
          simpa [offsets, modifyCell, ho] using h
        obtain heq | hmem := AList.mem_insert _ |>.1 h
        · exact Or.inr ⟨rfl, heq⟩
        · left
          rw [AList.mem_keys] at hmem
          simpa [offsets, ho] using hmem
      · left
        simpa [offsets, modifyCell, ho, hk] using h

theorem offsets_modifyCell_mono {k : κ} {off : Offset} {f : Step (PointsToSet N)} {s : State N κ}
    {k' : κ} {off' : Offset} (h : off' ∈ s.offsets k') :
    off' ∈ (modifyCell k off f s).1.offsets k' := by
  cases ho : s.objects k with
  | none =>
      rw [modifyCell_of_none ho]
      exact h
  | some o =>
      by_cases hk : k' = k
      · subst hk
        have hmem : off' ∈ (o.modify off f).1.pointsTo := by
          refine (AList.mem_insert _).2 (Or.inr ?_)
          rw [AList.mem_keys]
          simpa [offsets, ho] using h
        rw [AList.mem_keys] at hmem
        simpa [offsets, modifyCell, ho] using hmem
      · simpa [offsets, modifyCell, ho, hk] using h

theorem isSome_modifyCell (k : κ) (off : Offset) (f : Step (PointsToSet N)) {s : State N κ} {k' : κ}
    (h : (s.objects k').isSome = true) :
    ((modifyCell k off f s).1.objects k').isSome = true := by
  cases ho : s.objects k with
  | none =>
      rw [modifyCell_of_none ho]
      exact h
  | some o =>
      by_cases hk : k' = k
      · simp [modifyCell, ho, hk]
      · simpa [modifyCell, ho, hk] using h

omit [DecidableEq κ] in
/-- Without an entry there is nothing. -/
theorem cell_of_not_mem {s : State N κ} {k : κ} {off : Offset} (h : off ∉ s.offsets k) :
    s.cell k off = .empty := by
  cases ho : s.objects k with
  | none => simp [cell, ho]
  | some o =>
      have hnot : off ∉ o.pointsTo := by
        rw [AList.mem_keys]
        simpa [offsets, ho] using h
      simp [cell, ho, MemoryObject.getPointsTo, AList.lookup_eq_none.2 hnot]

@[simp] theorem zeroInitialized_modifyCell (k : κ) (off : Offset) (f : Step (PointsToSet N))
    (s : State N κ) : (modifyCell k off f s).1.zeroInitialized = s.zeroInitialized := by
  rw [modifyCell]
  split <;> rfl

end Cells

@[simp] theorem zeroInitialized_copyToCell [DecidableEq N] [DecidableEq κ] (k : κ) (off : Offset)
    (src : Place N κ) (s : State N κ) :
    (copyToCell k off src s).1.zeroInitialized = s.zeroInitialized := by
  rw [copyToCell]
  split
  · rfl
  · exact zeroInitialized_modifyCell k off _ s

@[simp] theorem pts_copyToCell [DecidableEq N] [DecidableEq κ] (k : κ) (off : Offset)
    (src : Place N κ) (s : State N κ) (x : PSNode N) :
    (copyToCell k off src s).1.pts x = s.pts x := by
  rw [copyToCell]
  split
  · rfl
  · exact pts_modifyCell k off _ s x

theorem report_copyToCell [DecidableEq N] [DecidableEq κ] {k : κ} {s : State N κ}
    (h : (s.objects k).isSome = true) (off : Offset) (src : Place N κ) :
    (copyToCell k off src s).2 = false ↔ ∀ p ∈ s.read src, p ∈ s.cell k off := by
  rw [copyToCell]
  split
  · next hempty =>
      have hnil : (s.read src).pointers = [] := List.isEmpty_iff.1 hempty
      refine ⟨fun _ p hp => ?_, fun _ => rfl⟩
      have hp : p ∈ (s.read src).pointers := hp
      rw [hnil] at hp
      cases hp
  · rw [report_modifyCell h, PointsToSet.union_report_iff]

/-! ## Growth -/

/-- Every set grows, no object and no entry is lost, and a report means that one of the sets grows
strictly. -/
structure Rises (s t : State N κ) (b : Bool) : Prop where
  read : s.read ≤ t.read
  offsets : ∀ k, ∀ off ∈ s.offsets k, off ∈ t.offsets k
  objects : ∀ k, (s.objects k).isSome = true → (t.objects k).isSome = true
  report : b = true → s.read < t.read

theorem Rises.of_eq {s t : State N κ} (hread : t.read = s.read) (hobjects : t.objects = s.objects) :
    Rises s t false where
  read := hread.ge
  offsets := fun k off h => by
    have heq : t.offsets k = s.offsets k := by simp only [State.offsets, hobjects]
    rw [heq]
    exact h
  objects := fun k h => hobjects ▸ h
  report := fun h => by cases h

theorem Rises.composes : Step.Composes (@Rises N κ) where
  skip := fun _ => .of_eq rfl rfl
  andThen := by
    intro s t u b c hst htu
    refine ⟨hst.read.trans htu.read, fun k off h => htu.offsets k off (hst.offsets k off h),
      fun k h => htu.objects k (hst.objects k h), ?_⟩
    intro h
    obtain hb | hc := Bool.or_eq_true_iff.1 h
    · exact (hst.report hb).trans_le htu.read
    · exact hst.read.trans_lt (htu.report hc)

/-- A step on sets that only grows them, and strictly where it reports. -/
def SetRises (f : Step (PointsToSet N)) : Prop :=
  ∀ S, S ≤ (f S).1 ∧ ((f S).2 = true → S < (f S).1)

variable [DecidableEq N] [DecidableEq κ]

theorem setRises_add (p : Pointer N) : SetRises (PointsToSet.add p) := fun S =>
  ⟨PointsToSet.grows_add p S, PointsToSet.lt_add⟩

theorem setRises_union (T : PointsToSet N) : SetRises (PointsToSet.union T) := fun S =>
  ⟨PointsToSet.grows_union S T, PointsToSet.lt_union⟩

omit [DecidableEq κ] in
theorem rises_modifyNode {f : Step (PointsToSet N)} (hf : SetRises f) (n : N) (s : State N κ) :
    Step.Meets Rises (modifyNode n f) s := by
  have hle : s.read ≤ (modifyNode n f s).1.read := by
    rintro (x | ⟨k, off⟩)
    · show s.pts x ≤ (modifyNode n f s).1.pts x
      rw [pts_modifyNode]
      split
      · exact (hf _).1
      · exact le_refl _
    · exact le_refl _
  refine ⟨hle, fun _ _ hoff => hoff, fun _ hk => hk, fun h =>
    Pi.lt_def.2 ⟨hle, .node (.node n), ?_⟩⟩
  show s.pts (.node n) < (modifyNode n f s).1.pts (.node n)
  rw [pts_modifyNode, if_pos rfl]
  exact (hf _).2 h

omit [DecidableEq N] in
theorem rises_modifyCell {f : Step (PointsToSet N)} (hf : SetRises f) (k : κ) (off : Offset)
    (s : State N κ) : Step.Meets Rises (modifyCell k off f) s := by
  cases ho : s.objects k with
  | none =>
      apply Step.Meets.of_eq (g := Step.skip) _ (modifyCell_of_none ho off f)
      exact Rises.composes.skip s
  | some o =>
      have hsome : (s.objects k).isSome = true := by rw [ho]; rfl
      have hle : s.read ≤ (modifyCell k off f s).1.read := by
        rintro (x | ⟨k', off'⟩)
        · show s.pts x ≤ (modifyCell k off f s).1.pts x
          rw [pts_modifyCell]
        · show s.cell k' off' ≤ (modifyCell k off f s).1.cell k' off'
          rw [cell_modifyCell hsome]
          split
          · next h =>
              obtain ⟨rfl, rfl⟩ := h
              exact (hf _).1
          · exact le_refl _
      refine ⟨hle, fun _ _ hoff => offsets_modifyCell_mono hoff,
        fun k' hk' => isSome_modifyCell k off f hk', fun h =>
          Pi.lt_def.2 ⟨hle, .cell k off, ?_⟩⟩
      show s.cell k off < (modifyCell k off f s).1.cell k off
      rw [cell_modifyCell hsome, if_pos ⟨rfl, rfl⟩]
      exact (hf _).2 (report_modifyCell hsome off f ▸ h)

theorem rises_copyToCell (k : κ) (off : Offset) (src : Place N κ) (s : State N κ) :
    Step.Meets Rises (copyToCell k off src) s := by
  apply Step.Meets.ite (g := Step.skip) (h := modifyCell k off (PointsToSet.union (s.read src))) rfl
  · exact fun _ => Rises.composes.skip s
  · exact fun _ => rises_modifyCell (setRises_union _) k off s

omit [DecidableEq κ] in
theorem rises_setZeroInitialized (x : PSNode N) (s : State N κ) :
    Step.Meets Rises (setZeroInitialized x) s := by
  cases x with
  | node n => exact Rises.of_eq rfl rfl
  | nullptr => exact Rises.composes.skip s
  | unknownMemory => exact Rises.composes.skip s
  | invalidated => exact Rises.composes.skip s

end State

/-! ## Memory models -/

/-- What getting objects may do: it creates empty objects, and those it finds exist. -/
structure Finds (s t : State N κ) (keys : List κ) : Prop where
  pointsTo : t.pointsTo = s.pointsTo
  zeroInitialized : t.zeroInitialized = s.zeroInitialized
  parent : t.parent = s.parent
  objects : ∀ k, t.objects k = s.objects k ∨
    (s.objects k = none ∧ ∃ x, t.objects k = some (MemoryObject.create x))
  isSome : ∀ k ∈ keys, (t.objects k).isSome = true

/-- A way to get memory objects. For a node that writes to memory there always are some, and which
they are depends on the pointer alone. -/
structure MemoryModel (G : PointerGraph N) (κ : Type v) where
  getMemoryObjects : GetMemoryObjects N κ
  finds : ∀ n p s, Finds s (getMemoryObjects n p s).1 (getMemoryObjects n p s).2
  ofMemcpy : ∀ n src dst len, G.kind n = .memcpy src dst len → ∀ p s t,
    (getMemoryObjects n p s).2 = (getMemoryObjects n p t).2

namespace Finds

variable {s t : State N κ} {keys : List κ}

theorem refl (h : ∀ k ∈ keys, (s.objects k).isSome = true) : Finds s s keys :=
  ⟨rfl, rfl, rfl, fun _ => Or.inl rfl, h⟩

theorem pts (h : Finds s t keys) (x : PSNode N) : t.pts x = s.pts x := by
  cases x with
  | node n => exact congrFun h.pointsTo n
  | nullptr => rfl
  | unknownMemory => rfl
  | invalidated => rfl

theorem cell (h : Finds s t keys) (k : κ) (off : Offset) : t.cell k off = s.cell k off := by
  obtain heq | ⟨hnone, x, hsome⟩ := h.objects k
  · unfold State.cell
    rw [heq]
  · simp [State.cell, hnone, hsome]

theorem offsets (h : Finds s t keys) (k : κ) : t.offsets k = s.offsets k := by
  obtain heq | ⟨hnone, x, hsome⟩ := h.objects k
  · unfold State.offsets
    rw [heq]
  · simp [State.offsets, hnone, hsome, MemoryObject.create]

theorem read (h : Finds s t keys) : t.read = s.read := by
  funext pl
  cases pl with
  | node x => exact h.pts x
  | cell k off => exact h.cell k off

theorem rises (h : Finds s t keys) : State.Rises s t false where
  read := h.read.ge
  offsets := fun k off hoff => by
    rw [h.offsets]
    exact hoff
  objects := fun k hk => by
    obtain heq | ⟨-, x, hsome⟩ := h.objects k
    · rw [heq]
      exact hk
    · rw [hsome]
      rfl
  report := fun h => by cases h

end Finds

namespace MemoryModel

variable [DecidableEq N] [DecidableEq κ]
variable {G : PointerGraph N} (M : MemoryModel G κ) (opts : PointerAnalysisOptions)

/-- The elementary writes let the state rise. -/
theorem rises (n : N) : Elementary G opts M.getMemoryObjects n (fun _ => True) (fun _ => True)
    (fun _ _ => True) State.Rises :=
  .of_writes State.Rises.composes
    (fun p s => (M.finds n p s).rises)
    (fun p s => State.rises_modifyNode (State.setRises_add p) n s)
    (fun src s => State.rises_modifyNode (State.setRises_union (s.read src)) n s)
    (fun k off s => State.rises_modifyCell (State.setRises_add .nullPointer) k off s)
    State.rises_copyToCell
    (fun _ _ => State.Rises.of_eq rfl rfl)

/-- **Processing a node lets the state rise**, strictly where a change is reported. -/
theorem rises_processNode (n : N) (s : State N κ) :
    State.Rises s (processNode G opts M.getMemoryObjects n s).1
      (processNode G opts M.getMemoryObjects n s).2 := by
  have hzero : ∀ (x : PSNode N) (s : State N κ),
      Step.Meets (Under (fun _ => True) State.Rises) (State.setZeroInitialized x) s :=
    fun x s _ => ⟨trivial, State.rises_setZeroInitialized x s⟩
  exact ((M.rises opts n).processNode (fun _ _ _ _ => hzero) s trivial).2

/-- A node changes no set but its own. -/
theorem pts_processNode_of_ne {m n : N} (h : m ≠ n) (s : State N κ) :
    (processNode G opts M.getMemoryObjects n s).1.pts (.node m) = s.pts (.node m) := by
  have hne : PSNode.node m ≠ .node n := fun heq => h (PSNode.node.inj heq)
  have hwrites : Elementary G opts M.getMemoryObjects n (fun _ => True) (fun _ => True)
      (fun _ _ => True) (fun s t _ => t.pts (.node m) = s.pts (.node m)) :=
    .of_writes ⟨fun _ => rfl, fun h h' => h'.trans h⟩
      (fun p s => (M.finds n p s).pts _)
      (fun _ s => (State.pts_modifyNode n _ s _).trans (if_neg hne))
      (fun _ s => (State.pts_modifyNode n _ s _).trans (if_neg hne))
      (fun k off s => State.pts_modifyCell k off _ s _)
      (fun k off src s => State.pts_copyToCell k off src s _)
      (fun _ _ => rfl)
  exact (hwrites.processNode (fun _ _ _ _ x _ _ => ⟨trivial, by cases x <;> rfl⟩) s trivial).2

end MemoryModel

end Cape.PointerAnalysis
