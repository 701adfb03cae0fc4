import Cape.PointerAnalysis.MemoryModel

/-!
# Where a node writes

A store and a `memcpy` write to the objects that they find, and to no other; the other nodes write to
no object (`MemoryModel.spares_processNode`).
-/

set_option autoImplicit false

namespace Cape.PointerAnalysis

open Cape.Library

universe u v

variable {N : Type u} {κ : Type v} [DecidableEq N] [DecidableEq κ]

/-- The contents of the objects outside of `K` are the given ones. -/
def State.Outside (K : κ → Prop) (c : κ → Offset → PointsToSet N) (s : State N κ) : Prop :=
  ∀ k, ¬ K k → ∀ off, s.cell k off = c k off

namespace State.Outside

variable {K : κ → Prop} {c : κ → Offset → PointsToSet N} {s : State N κ}

omit [DecidableEq N] in
theorem modifyCell (h : Outside K c s) {k : κ} (hk : K k) (off : Offset)
    (f : Step (PointsToSet N)) : Outside K c (modifyCell k off f s).1 := by
  intro k' hk' off'
  have hne : k' ≠ k := fun heq => hk' (heq ▸ hk)
  cases ho : s.objects k with
  | none =>
      rw [modifyCell_of_none ho]
      exact h k' hk' off'
  | some o =>
      rw [cell_modifyCell (by rw [ho]; rfl), if_neg (fun heq => hne heq.1)]
      exact h k' hk' off'

theorem copyToCell (h : Outside K c s) {k : κ} (hk : K k) (off : Offset) (src : Place N κ) :
    Outside K c (copyToCell k off src s).1 := by
  rw [State.copyToCell]
  split
  · exact h
  · exact h.modifyCell hk off _

omit [DecidableEq N] [DecidableEq κ] in
theorem of_finds (h : Outside K c s) {t : State N κ} {keys : List κ} (ht : Finds s t keys) :
    Outside K c t := fun k hk off => (ht.cell k off).trans (h k hk off)

end State.Outside

/-- The step does not touch what is outside. -/
def State.Spares (K : κ → Prop) (c : κ → Offset → PointsToSet N) (f : Step (State N κ)) : Prop :=
  ∀ s, s.Outside K c → (f s).1.Outside K c

namespace MemoryModel

open State

variable {G : PointerGraph N} (M : MemoryModel G κ) (opts : PointerAnalysisOptions)
variable {K : κ → Prop} {c : κ → Offset → PointsToSet N} {n : N}

/-- The objects that the node finds are all in `K`. -/
def FindsIn (K : κ → Prop) (n : N) : Prop := ∀ p s, ∀ k ∈ (M.getMemoryObjects n p s).2, K k

omit [DecidableEq N] [DecidableEq κ] in
theorem spares_skip : Spares K c (Step.skip : Step (State N κ)) := fun _ hs => hs

omit [DecidableEq κ] in
theorem spares_copyToNode (src : Place N κ) : Spares K c (copyToNode n src) := fun _ hs => hs

omit [DecidableEq κ] in
theorem spares_addToNode (p : Pointer N) : Spares K c (addToNode (κ := κ) n p) := fun _ hs => hs

omit [DecidableEq N] [DecidableEq κ] in
theorem spares_each {α : Type*} {f : α → Step (State N κ)} {l : List α}
    (hf : ∀ a ∈ l, Spares K c (f a)) : Spares K c (Step.each f l) :=
  fun _ hs => Step.each_keeps (fun a ha s hs => hf a ha s hs) hs

omit [DecidableEq N] [DecidableEq κ] in
theorem spares_withObjects (p : Pointer N) {f : List κ → Step (State N κ)}
    (hf : ∀ s, Spares K c (f (M.getMemoryObjects n p s).2)) :
    Spares K c (withObjects M.getMemoryObjects n p f) :=
  fun s hs => hf s _ (hs.of_finds (M.finds n p s))

omit [DecidableEq κ] in
theorem spares_setZeroInitialized (x : PSNode N) :
    Spares K c (setZeroInitialized (κ := κ) x) := by
  intro s hs
  cases x with
  | node n => exact hs
  | nullptr => exact hs
  | unknownMemory => exact hs
  | invalidated => exact hs

omit [DecidableEq κ] in
theorem spares_loadObject (p : Pointer N) (k : κ) : Spares K c (loadObject n p k) := by
  intro s hs
  rw [loadObject]
  split
  · refine spares_each (fun off _ => spares_copyToNode _) _ ?_
    split
    · exact hs
    · exact hs
  · have hlast : ∀ t : State N κ, t.Outside K c → ((if Offset.unknown ∈ t.offsets k then
        copyToNode n (.cell k .unknown) t else (t, false)) : State N κ × Bool).1.Outside K c := by
      intro t ht
      split
      · exact ht
      · exact ht
    apply hlast
    split
    · exact hs
    · split
      · exact hs
      · exact hs

omit [DecidableEq κ] in
theorem spares_loadPointer (p : Pointer N) :
    Spares K c (loadPointer G M.getMemoryObjects n p) := by
  rw [loadPointer]
  split
  · exact spares_addToNode _
  · split
    · exact spares_skip
    · refine M.spares_withObjects p fun _ s hs => ?_
      split
      · split
        · exact hs
        · exact hs
      · exact spares_each (fun k _ => spares_loadObject p k) s hs

theorem spares_storePointer (hkeys : M.FindsIn K n) (value : PSNode N) (p : Pointer N) :
    Spares K c (storePointer G M.getMemoryObjects n value p) := by
  rw [storePointer]
  split
  · exact spares_skip
  · refine M.spares_withObjects p fun s => ?_
    exact spares_each fun k hk s' hs => hs.copyToCell (hkeys p s k hk) _ _

theorem spares_copyEntries {dest : κ} (hdest : K dest) (sptr dptr : Pointer N) (len : Offset)
    (so : κ) : Spares K c (copyEntries G opts sptr dptr len dest so) := by
  have hcomposes : Step.Composes fun (s t : State N κ) (_ : Bool) =>
      s.Outside K c → t.Outside K c := ⟨fun _ => id, fun hst htu hs => htu (hst hs)⟩
  refine fun s hs => Step.Meets.scan hcomposes (fun off s hs => ?_) _ _ s hs
  rw [copyEntry]
  split
  · exact hs.copyToCell hdest _ _
  · exact hs

theorem spares_processMemcpyObjects (srcs : List κ) {dests : List κ} (hdests : ∀ k ∈ dests, K k)
    (sptr dptr : Pointer N) (len : Offset) :
    Spares K c (processMemcpyObjects G opts srcs dests sptr dptr len) := by
  intro s hs
  have hzero : ((if s.isZeroInitialized sptr.target && copiesWhole G sptr dptr len then
      setZeroInitialized dptr.target else Step.skip) s).1.Outside K c := by
    split
    · exact spares_setZeroInitialized _ s hs
    · exact hs
  refine spares_each (fun dest hdest s hs => ?_) _ hzero
  refine spares_each (fun so _ => spares_copyEntries opts (hdests dest hdest) sptr dptr len so) _ ?_
  split
  · exact hs.modifyCell (hdests dest hdest) _ _
  · exact hs

theorem spares_processMemcpy (hkeys : M.FindsIn K n) (src dest : PSNode N) (len : Offset) :
    Spares K c (processMemcpy G opts M.getMemoryObjects n src dest len) := by
  refine fun s hs => spares_each (fun sptr _ => ?_) s hs
  rw [memcpySource]
  split
  · exact spares_skip
  · refine M.spares_withObjects sptr fun _ s hs => spares_each (fun dptr _ => ?_) s hs
    rw [memcpyDest]
    split
    · exact spares_skip
    · exact M.spares_withObjects dptr fun s =>
        spares_processMemcpyObjects opts _ (hkeys dptr s) sptr dptr len

/-- **A store and a `memcpy` write to the objects that they find**, and to no other; the other nodes
write to no object. -/
theorem spares_processNode
    (hstore : ∀ value address, G.kind n = .store value address → M.FindsIn K n)
    (hmemcpy : ∀ src dest len, G.kind n = .memcpy src dest len → M.FindsIn K n) :
    Spares K c (processNode G opts M.getMemoryObjects n) := by
  have hphi : ∀ ops, Spares K c (processPhi (κ := κ) n ops) :=
    fun ops => spares_each fun op _ => spares_copyToNode _
  have hcalled : ∀ op, Spares K c (processCalled (κ := κ) G opts n op) := by
    refine fun op s hs => spares_each (fun p _ => ?_) s hs
    split
    · exact spares_skip
    · exact spares_addToNode p
  unfold processNode
  split
  · exact fun s hs => spares_each (fun p _ => M.spares_loadPointer p) s hs
  · next hkind =>
      exact fun s hs => spares_each (fun p _ => M.spares_storePointer (hstore _ _ hkind) _ p) s hs
  · exact spares_skip
  · exact spares_skip
  · split
    · split
      · exact fun _ hs => hs
      · exact spares_skip
    · exact spares_skip
  · exact fun s hs => spares_each (fun p _ => spares_addToNode _) s hs
  · exact spares_copyToNode _
  · exact spares_skip
  · split
    · refine fun s hs => hphi _ _ (spares_each (fun op _ s hs => ?_) s hs)
      refine spares_each (fun p _ => ?_) s hs
      split
      · split
        · exact spares_addToNode _
        · exact spares_skip
      · exact spares_skip
    · exact hphi _
  · exact hphi _
  · exact hphi _
  · exact hcalled _
  · exact hcalled _
  · exact spares_skip
  · next hkind => exact M.spares_processMemcpy opts (hmemcpy _ _ _ hkind) _ _ _
  · exact spares_skip
  · exact spares_skip
  · exact spares_skip
  · exact spares_skip
  · exact spares_skip

end MemoryModel

end Cape.PointerAnalysis
