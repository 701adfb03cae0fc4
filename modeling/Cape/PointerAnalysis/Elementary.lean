import Cape.PointerAnalysis.ProcessNode

/-!
# What processing a node is made of

Processing a node is a sequence of elementary writes: a pointer is added to a set, one set is copied
into another, an object is created, a flag is set. A relation between the state before, the state
after and the report, that holds of the elementary writes and is kept by composition, holds of
`processNode` (`Elementary.processNode`).

The writes may be known to happen under an invariant `I` of the states, to add only pointers of a
kind `P` and to use in an object only offsets of a kind `Q`.
-/

set_option autoImplicit false

namespace Cape.PointerAnalysis

open Cape.Library

universe u v

variable {N : Type u} {κ : Type v}

/-- From a state with the invariant to one with it, related by `R`. -/
def Under (I : State N κ → Prop) (R : State N κ → State N κ → Bool → Prop) (s t : State N κ)
    (b : Bool) : Prop :=
  I s → I t ∧ R s t b

variable {I : State N κ → Prop} {R : State N κ → State N κ → Bool → Prop}

theorem Under.composes (h : Step.Composes R) : Step.Composes (Under I R) where
  skip := fun s hs => ⟨hs, h.skip s⟩
  andThen := fun hst htu hs =>
    ⟨(htu (hst hs).1).1, h.andThen (hst hs).2 (htu (hst hs).1).2⟩

variable [DecidableEq N] [DecidableEq κ]
variable {G : PointerGraph N} {opts : PointerAnalysisOptions} {objs : GetMemoryObjects N κ}
variable {n : N} {P : Pointer N → Prop} {Q : κ → Offset → Prop}

/-! ## Copying memory -/

/-- The writes of a `memcpy` at the node `n` meet the relation. -/
structure CopyWrites (G : PointerGraph N) (opts : PointerAnalysisOptions)
    (objs : GetMemoryObjects N κ) (n : N) (I : State N κ → Prop) (P : Pointer N → Prop)
    (R : State N κ → State N κ → Bool → Prop) : Prop where
  composes : Step.Composes R
  occurs : ∀ s x p, I s → p ∈ s.pts x → P p
  objects : ∀ p s, P p → Under I R s (objs n p s).1 false
  null : ∀ k s, Step.Meets (Under I R) (State.addToCell k .unknown .nullPointer) s
  entry : ∀ sptr dptr len dest so off s,
    Step.Meets (Under I R) (copyEntry G opts sptr dptr len dest so off) s

namespace CopyWrites

variable (h : CopyWrites G opts objs n I P R)
include h

theorem skip (s : State N κ) : Step.Meets (Under I R) Step.skip s :=
  (Under.composes h.composes).skip s

theorem eachPointer {f : Pointer N → Step (State N κ)} (x : PSNode N) (s : State N κ)
    (hf : ∀ p, P p → ∀ s, Step.Meets (Under I R) (f p) s) :
    Step.Meets (Under I R) (fun s => Step.each f (s.pts x).pointers s) s := by
  intro hs
  exact Step.Meets.each (Under.composes h.composes) (fun p hp => hf p (h.occurs s x p hs hp)) s hs

theorem withObjects {p : Pointer N} {f : List κ → Step (State N κ)} (hp : P p)
    (s : State N κ) (hf : ∀ l s, Step.Meets (Under I R) (f l) s) :
    Step.Meets (Under I R) (withObjects objs n p f) s := by
  intro hs
  have hobjs := h.objects p s hp hs
  have hrest := hf (objs n p s).2 (objs n p s).1 hobjs.1
  have hboth := h.composes.andThen hobjs.2 hrest.2
  rw [Bool.false_or] at hboth
  exact ⟨hrest.1, hboth⟩

theorem processMemcpyObjects (src dest : List κ) (sptr dptr : Pointer N) (len : Offset)
    (hzero : ∀ s, Step.Meets (Under I R) (State.setZeroInitialized dptr.target) s)
    (s : State N κ) :
    Step.Meets (Under I R) (processMemcpyObjects G opts src dest sptr dptr len) s := by
  have hcomposes := Under.composes (I := I) h.composes
  apply Step.Meets.of_eq (g := Step.andThen _ _) _ rfl
  apply Step.Meets.andThen hcomposes
  · split
    · exact hzero s
    · exact h.skip s
  · apply Step.Meets.each hcomposes
    intro d _ s
    apply Step.Meets.andThen hcomposes
    · split
      · exact h.null d s
      · exact h.skip s
    · apply Step.Meets.each hcomposes
      exact fun so _ s => Step.Meets.scan hcomposes
        (fun off s => h.entry sptr dptr len d so off s) _ _ s

theorem memcpyDest {sptr dptr : Pointer N} (hdptr : P dptr) (len : Offset)
    (srcObjects : List κ)
    (hzero : ∀ s, Step.Meets (Under I R) (State.setZeroInitialized dptr.target) s)
    (s : State N κ) :
    Step.Meets (Under I R) (memcpyDest G opts objs n sptr len srcObjects dptr) s := by
  unfold PointerAnalysis.memcpyDest
  split
  · exact h.skip s
  · apply h.withObjects hdptr
    intro destObjects s
    exact h.processMemcpyObjects srcObjects destObjects sptr dptr len hzero s

theorem memcpySource (dest : PSNode N) (len : Offset) {sptr : Pointer N} (hsptr : P sptr)
    (hzero : ∀ x s, Step.Meets (Under I R) (State.setZeroInitialized x) s) (s : State N κ) :
    Step.Meets (Under I R) (memcpySource G opts objs n dest len sptr) s := by
  unfold PointerAnalysis.memcpySource
  split
  · exact h.skip s
  · apply h.withObjects hsptr
    intro srcObjects s
    apply h.eachPointer
    exact fun dptr hdptr => h.memcpyDest hdptr len srcObjects (hzero _)

theorem processMemcpy (src dest : PSNode N) (len : Offset)
    (hzero : ∀ x s, Step.Meets (Under I R) (State.setZeroInitialized x) s) (s : State N κ) :
    Step.Meets (Under I R) (processMemcpy G opts objs n src dest len) s :=
  h.eachPointer src s fun _ hsptr => h.memcpySource dest len hsptr hzero

end CopyWrites

/-! ## All nodes -/

/-- The elementary writes of the node `n` meet the relation. -/
structure Elementary (G : PointerGraph N) (opts : PointerAnalysisOptions)
    (objs : GetMemoryObjects N κ) (n : N) (I : State N κ → Prop) (P : Pointer N → Prop)
    (Q : κ → Offset → Prop) (R : State N κ → State N κ → Bool → Prop) : Prop where
  composes : Step.Composes R
  occurs : ∀ s x p, I s → p ∈ s.pts x → P p
  null : P .nullPointer
  unknown : P .unknownPointer
  invalidated : P ⟨.invalidated, 0⟩
  gep : ∀ p off, P p → P (gepPointer G opts p off)
  unknownOffset : ∀ k, Q k .unknown
  storedTo : ∀ p s k, I s → P p → k ∈ (objs n p s).2 → Q k p.offset
  copiedTo : ∀ s sptr dptr k off, I s →
    Q k (copiedTo G opts sptr dptr ((s.objects k).elim .nullptr MemoryObject.node) off)
  objects : ∀ p s, P p → Under I R s (objs n p s).1 false
  addToNode : ∀ p s, P p → Step.Meets (Under I R) (State.addToNode n p) s
  copyToNode : ∀ src s, Step.Meets (Under I R) (State.copyToNode n src) s
  addToCell : ∀ k off s, Q k off → Step.Meets (Under I R) (State.addToCell k off .nullPointer) s
  copyToCell : ∀ k off src s, Q k off → Step.Meets (Under I R) (State.copyToCell k off src) s
  setParent : ∀ p s, Step.Meets (Under I R) (State.setParent n p) s

namespace Elementary

/-- Writes that meet the relation whatever they write and wherever. -/
theorem of_writes (composes : Step.Composes R)
    (objects : ∀ p s, R s (objs n p s).1 false)
    (addToNode : ∀ p s, Step.Meets R (State.addToNode n p) s)
    (copyToNode : ∀ src s, Step.Meets R (State.copyToNode n src) s)
    (addToCell : ∀ k off s, Step.Meets R (State.addToCell k off .nullPointer) s)
    (copyToCell : ∀ k off src s, Step.Meets R (State.copyToCell k off src) s)
    (setParent : ∀ p s, Step.Meets R (State.setParent n p) s) :
    Elementary G opts objs n (fun _ => True) (fun _ => True) (fun _ _ => True) R where
  composes := composes
  occurs := fun _ _ _ _ _ => trivial
  null := trivial
  unknown := trivial
  invalidated := trivial
  gep := fun _ _ _ => trivial
  unknownOffset := fun _ => trivial
  storedTo := fun _ _ _ _ _ _ => trivial
  copiedTo := fun _ _ _ _ _ _ => trivial
  objects := fun p s _ _ => ⟨trivial, objects p s⟩
  addToNode := fun p s _ _ => ⟨trivial, addToNode p s⟩
  copyToNode := fun src s _ => ⟨trivial, copyToNode src s⟩
  addToCell := fun k off s _ _ => ⟨trivial, addToCell k off s⟩
  copyToCell := fun k off src s _ _ => ⟨trivial, copyToCell k off src s⟩
  setParent := fun p s _ => ⟨trivial, setParent p s⟩

variable (h : Elementary G opts objs n I P Q R)
include h

theorem skip (s : State N κ) : Step.Meets (Under I R) Step.skip s :=
  (Under.composes h.composes).skip s

theorem andThen {f g : Step (State N κ)} {s : State N κ} (hf : Step.Meets (Under I R) f s)
    (hg : ∀ s, Step.Meets (Under I R) g s) : Step.Meets (Under I R) (f.andThen g) s :=
  Step.Meets.andThen (Under.composes h.composes) hf (hg _)

theorem each {α : Type*} {f : α → Step (State N κ)} {l : List α}
    (hf : ∀ a ∈ l, ∀ s, Step.Meets (Under I R) (f a) s) (s : State N κ) :
    Step.Meets (Under I R) (Step.each f l) s :=
  Step.Meets.each (Under.composes h.composes) hf s

/-- A loop over the pointers of a set. -/
theorem eachPointer {f : Pointer N → Step (State N κ)} (x : PSNode N) (s : State N κ)
    (hf : ∀ p, P p → ∀ s, Step.Meets (Under I R) (f p) s) :
    Step.Meets (Under I R) (fun s => Step.each f (s.pts x).pointers s) s := by
  intro hs
  exact h.each (fun p hp => hf p (h.occurs s x p hs hp)) s hs

theorem withObjects {p : Pointer N} {f : List κ → Step (State N κ)} (hp : P p)
    (s : State N κ)
    (hf : ∀ l, (∀ k ∈ l, Q k p.offset) → ∀ s, Step.Meets (Under I R) (f l) s) :
    Step.Meets (Under I R) (withObjects objs n p f) s := by
  intro hs
  have hobjs := h.objects p s hp hs
  have hrest := hf (objs n p s).2 (fun k hk => h.storedTo p s k hs hp hk) (objs n p s).1 hobjs.1
  have hboth := h.composes.andThen hobjs.2 hrest.2
  rw [Bool.false_or] at hboth
  exact ⟨hrest.1, hboth⟩

theorem loadObject (p : Pointer N) (k : κ) (s : State N κ) :
    Step.Meets (Under I R) (loadObject n p k) s := by
  refine Step.Meets.ite (g := Step.andThen _ _) (h := Step.andThen _ _) rfl (fun _ => ?_) fun _ => ?_
  · apply h.andThen
    · split
      · exact h.addToNode _ s h.null
      · exact h.skip s
    · exact h.each fun off _ s => h.copyToNode _ s
  · apply h.andThen
    · split
      · exact h.copyToNode _ s
      · split
        · exact h.addToNode _ s h.null
        · exact h.skip s
    · intro s
      exact Step.Meets.ite (h := Step.skip) rfl (fun _ => h.copyToNode _ s) fun _ => h.skip s

theorem loadPointer {p : Pointer N} (hp : P p) (s : State N κ) :
    Step.Meets (Under I R) (loadPointer G objs n p) s := by
  unfold PointerAnalysis.loadPointer
  split
  · exact h.addToNode _ s h.unknown
  · split
    · exact h.skip s
    · apply h.withObjects hp
      intro l _ s
      refine Step.Meets.ite (g := fun s => ite _ _ _) (h := Step.each _ _) rfl (fun _ => ?_)
        fun _ => ?_
      · exact Step.Meets.ite (h := Step.skip) rfl (fun _ => h.addToNode _ s h.null)
          fun _ => h.skip s
      · exact h.each (fun k _ => h.loadObject p k) s

theorem processLoad (op : PSNode N) (s : State N κ) :
    Step.Meets (Under I R) (processLoad G objs n op) s :=
  h.eachPointer op s fun _ hp => h.loadPointer hp

theorem copyEntry (sptr dptr : Pointer N) (len : Offset) (dest so : κ) (off : Offset)
    (s : State N κ) : Step.Meets (Under I R) (copyEntry G opts sptr dptr len dest so off) s := by
  intro hs
  have hcopy := h.copyToCell dest _ (.cell so off) s (h.copiedTo s sptr dptr dest off hs)
  have hmeets : Step.Meets (Under I R)
      (PointerAnalysis.copyEntry G opts sptr dptr len dest so off) s :=
    Step.Meets.ite (h := Step.skip) rfl (fun _ => hcopy) fun _ => h.skip s
  exact hmeets hs

/-- A `memcpy` is made of elementary writes. -/
theorem copyWrites : CopyWrites G opts objs n I P R where
  composes := h.composes
  occurs := h.occurs
  objects := h.objects
  null := fun k s => h.addToCell k _ s (h.unknownOffset k)
  entry := h.copyEntry

theorem storePointer (value : PSNode N) {p : Pointer N} (hp : P p) (s : State N κ) :
    Step.Meets (Under I R) (storePointer G objs n value p) s := by
  unfold PointerAnalysis.storePointer
  split
  · exact h.skip s
  · apply h.withObjects hp
    intro l hl s
    exact h.each (fun k hk s => h.copyToCell k _ _ s (hl k hk)) s

theorem processStore (value address : PSNode N) (s : State N κ) :
    Step.Meets (Under I R) (processStore G objs n value address) s :=
  h.eachPointer address s fun _ hp => h.storePointer value hp

theorem processPhi (ops : List (PSNode N)) (s : State N κ) :
    Step.Meets (Under I R) (processPhi n ops) s :=
  h.each (fun op _ s => h.copyToNode (.node op) s) s

theorem invalidateReturned (ops : List (PSNode N)) (s : State N κ) :
    Step.Meets (Under I R) (invalidateReturned G n ops) s := by
  apply h.each
  intro op _ s
  apply h.eachPointer
  intro p _ s
  split
  · split
    · exact h.addToNode _ s h.invalidated
    · exact h.skip s
  · exact h.skip s

theorem processCalled (op : PSNode N) (s : State N κ) :
    Step.Meets (Under I R) (processCalled G opts n op) s := by
  apply h.eachPointer
  intro p hp s
  split
  · exact h.skip s
  · exact h.addToNode p s hp

/-- **The rule for `processNode`.** Only a `memcpy` sets a flag for zeroed memory. -/
theorem processNode
    (hzero : ∀ src dest len, G.kind n = .memcpy src dest len → ∀ x s,
      Step.Meets (Under I R) (State.setZeroInitialized x) s) (s : State N κ) :
    Step.Meets (Under I R) (processNode G opts objs n) s := by
  unfold PointerAnalysis.processNode
  split
  · exact h.processLoad _ s
  · exact h.processStore _ _ s
  · exact h.skip s
  · exact h.skip s
  · split
    · split
      · exact h.setParent _ s
      · exact h.skip s
    · exact h.skip s
  · apply h.eachPointer
    exact fun p hp s => h.addToNode _ s (h.gep p _ hp)
  · exact h.copyToNode _ s
  · exact h.skip s
  · split
    · exact h.andThen (h.invalidateReturned _ s) (h.processPhi _)
    · exact h.processPhi _ s
  · exact h.processPhi _ s
  · exact h.processPhi _ s
  · exact h.processCalled _ s
  · exact h.processCalled _ s
  · exact h.skip s
  · next hkind => exact h.copyWrites.processMemcpy _ _ _ (hzero _ _ _ hkind) s
  · exact h.skip s
  · exact h.skip s
  · exact h.skip s
  · exact h.skip s
  · exact h.skip s

end Elementary

end Cape.PointerAnalysis
