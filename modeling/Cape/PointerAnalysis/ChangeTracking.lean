import Cape.Library.FinLiterals
import Cape.PointerAnalysis.FlowInsensitive

/-!
# What an unreported step changes

A node that reports no change leaves the points-to sets and the contents of the memory objects as
they are (`MemoryModel.sameMemory_of_report`). The zero-initialisation flags are another matter:
`memcpy` of a whole zeroed object onto an object of its size sets a flag and does not report it.

**`MemoryModel.unreported_iff`**: an unreported step alters nothing, except for a `memcpy` that sets
a flag that was not set while everything that it copies is there already (`SilentlyZeroes`).
-/

set_option autoImplicit false

namespace Cape.PointerAnalysis

open Cape.Library

universe u v

variable {N : Type u} {κ : Type v}

/-- The same points-to sets and the same contents of memory; empty objects may be new. -/
structure State.SameMemory (s t : State N κ) : Prop where
  pts : ∀ x, t.pts x = s.pts x
  cell : ∀ k off, t.cell k off = s.cell k off
  offsets : ∀ k off, off ∈ t.offsets k ↔ off ∈ s.offsets k
  node : ∀ k o, s.objects k = some o → ∃ o', t.objects k = some o' ∧ o'.node = o.node

/-- Nothing that processing a node reads is altered. -/
structure State.Unaltered (s t : State N κ) : Prop extends State.SameMemory s t where
  zeroInitialized : t.zeroInitialized = s.zeroInitialized

namespace State

theorem SameMemory.refl (s : State N κ) : SameMemory s s :=
  ⟨fun _ => rfl, fun _ _ => rfl, fun _ _ => Iff.rfl, fun _ o ho => ⟨o, ho, rfl⟩⟩

theorem SameMemory.trans {s t u : State N κ} (h : SameMemory s t) (h' : SameMemory t u) :
    SameMemory s u where
  pts := fun x => (h'.pts x).trans (h.pts x)
  cell := fun k off => (h'.cell k off).trans (h.cell k off)
  offsets := fun k off => (h'.offsets k off).trans (h.offsets k off)
  node := by
    intro k o ho
    obtain ⟨o', ho', hnode⟩ := h.node k o ho
    obtain ⟨o'', ho'', hnode'⟩ := h'.node k o' ho'
    exact ⟨o'', ho'', hnode'.trans hnode⟩

theorem SameMemory.isSome {s t : State N κ} (h : SameMemory s t) {k : κ}
    (hk : (s.objects k).isSome = true) : (t.objects k).isSome = true := by
  obtain ⟨o, ho⟩ := Option.isSome_iff_exists.1 hk
  obtain ⟨o', ho', -⟩ := h.node k o ho
  rw [ho']
  rfl

theorem SameMemory.read {s t : State N κ} (h : SameMemory s t) : t.read = s.read := by
  funext pl
  cases pl with
  | node x => exact h.pts x
  | cell k off => exact h.cell k off

/-- An unreported step alters no set and no content. -/
def Silent (s t : State N κ) (b : Bool) : Prop := b = false → SameMemory s t

theorem Silent.composes : Step.Composes (@Silent N κ) where
  skip := fun s _ => .refl s
  andThen := by
    intro s t u b c hst htu h
    obtain ⟨hb, hc⟩ := Bool.or_eq_false_iff.1 h
    exact (hst hb).trans (htu hc)

variable [DecidableEq N] [DecidableEq κ]

omit [DecidableEq κ] in
theorem silent_modifyNode {f : Step (PointsToSet N)} (hf : ∀ S, (f S).2 = false → (f S).1 = S)
    (n : N) (s : State N κ) : Step.Meets Silent (modifyNode n f) s := by
  intro h
  refine ⟨fun x => ?_, fun _ _ => rfl, fun _ _ => Iff.rfl, fun _ o ho => ⟨o, ho, rfl⟩⟩
  rw [pts_modifyNode]
  split
  · next hx =>
      subst hx
      exact hf _ h
  · rfl

omit [DecidableEq N] in
theorem silent_modifyCell {f : Step (PointsToSet N)} (hf : ∀ S, (f S).2 = false → (f S).1 = S)
    (hempty : (f .empty).2 = true) (k : κ) (off : Offset) (s : State N κ) :
    Step.Meets Silent (modifyCell k off f) s := by
  cases ho : s.objects k with
  | none =>
      apply Step.Meets.of_eq (g := Step.skip) _ (modifyCell_of_none ho off f)
      exact Silent.composes.skip s
  | some o =>
      have hsome : (s.objects k).isSome = true := by rw [ho]; rfl
      intro h
      have h : (f (s.cell k off)).2 = false := report_modifyCell hsome off f ▸ h
      refine ⟨fun x => pts_modifyCell k off f s x, fun k' off' => ?_, fun k' off' => ?_,
        fun k' o' ho' => ?_⟩
      · rw [cell_modifyCell hsome]
        split
        · next heq =>
            obtain ⟨rfl, rfl⟩ := heq
            exact hf _ h
        · rfl
      · refine ⟨fun hmem => ?_, fun hmem => ?_⟩
        · obtain hold | ⟨rfl, rfl⟩ := mem_offsets_modifyCell hmem
          · exact hold
          · -- without an entry the set would be empty, and the change reported
            by_contra hnot
            have hcell : s.cell k' off' = .empty := cell_of_not_mem hnot
            rw [hcell, hempty] at h
            cases h
        · exact offsets_modifyCell_mono hmem
      · by_cases hk : k' = k
        · subst hk
          obtain rfl : o = o' := Option.some.inj (ho.symm.trans ho')
          exact ⟨(o.modify off f).1, by simp [modifyCell, ho], rfl⟩
        · exact ⟨o', by simp [modifyCell, ho, hk, ho'], rfl⟩

theorem silent_copyToCell (k : κ) (off : Offset) (src : Place N κ) (s : State N κ) :
    Step.Meets Silent (copyToCell k off src) s := by
  apply Step.Meets.ite (g := Step.skip) (h := modifyCell k off (PointsToSet.union (s.read src))) rfl
  · exact fun _ => Silent.composes.skip s
  · intro hne
    apply silent_modifyCell (fun _ => PointsToSet.union_of_report)
    exact PointsToSet.union_empty_report hne

omit [DecidableEq κ] in
theorem silent_setZeroInitialized (x : PSNode N) (s : State N κ) :
    Step.Meets Silent (setZeroInitialized x) s := by
  cases x with
  | node n => exact fun _ => ⟨fun x => by cases x <;> rfl, fun _ _ => rfl, fun _ _ => Iff.rfl,
      fun _ o ho => ⟨o, ho, rfl⟩⟩
  | nullptr => exact Silent.composes.skip s
  | unknownMemory => exact Silent.composes.skip s
  | invalidated => exact Silent.composes.skip s

omit [DecidableEq N] [DecidableEq κ] in
theorem sameMemory_of_finds {s t : State N κ} {keys : List κ} (h : Finds s t keys) :
    SameMemory s t where
  pts := h.pts
  cell := h.cell
  offsets := fun k off => by rw [h.offsets]
  node := by
    intro k o ho
    obtain heq | ⟨hnone, -⟩ := h.objects k
    · exact ⟨o, heq.trans ho, rfl⟩
    · rw [hnone] at ho
      cases ho

end State

namespace MemoryModel

variable [DecidableEq N] [DecidableEq κ]
variable {G : PointerGraph N} (M : MemoryModel G κ) (opts : PointerAnalysisOptions)

/-- The elementary writes report what they alter in memory. -/
theorem silent (n : N) : Elementary G opts M.getMemoryObjects n (fun _ => True) (fun _ => True)
    (fun _ _ => True) State.Silent :=
  .of_writes State.Silent.composes
    (fun p s _ => State.sameMemory_of_finds (M.finds n p s))
    (fun _ s => State.silent_modifyNode (fun _ => PointsToSet.add_of_report) n s)
    (fun _ s => State.silent_modifyNode (fun _ => PointsToSet.union_of_report) n s)
    (fun k off s => State.silent_modifyCell (fun _ => PointsToSet.add_of_report) rfl k off s)
    State.silent_copyToCell
    (fun _ _ _ => ⟨fun x => by cases x <;> rfl, fun _ _ => rfl, fun _ _ => Iff.rfl,
      fun _ o ho => ⟨o, ho, rfl⟩⟩)

/-- **Sets and contents are tracked**: an unreported step leaves them as they are. -/
theorem sameMemory_of_report (n : N) (s : State N κ)
    (h : (processNode G opts M.getMemoryObjects n s).2 = false) :
    s.SameMemory (processNode G opts M.getMemoryObjects n s).1 :=
  ((M.silent opts n).processNode
    (fun _ _ _ _ x s _ => ⟨trivial, State.silent_setZeroInitialized x s⟩) s trivial).2 h

/-- The elementary writes set no flag. -/
theorem keepsZero (n : N) : Elementary G opts M.getMemoryObjects n (fun _ => True) (fun _ => True)
    (fun _ _ => True) (fun s t _ => t.zeroInitialized = s.zeroInitialized) :=
  .of_writes ⟨fun _ => rfl, fun h h' => h'.trans h⟩
    (fun p s => (M.finds n p s).zeroInitialized)
    (fun _ _ => rfl) (fun _ _ => rfl)
    (fun k off s => State.zeroInitialized_modifyCell k off _ s)
    State.zeroInitialized_copyToCell
    (fun _ _ => rfl)

/-- Only a `memcpy` sets a flag. -/
theorem zeroInitialized_processNode {n : N}
    (hkind : ∀ src dest len, G.kind n ≠ .memcpy src dest len) (s : State N κ) :
    (processNode G opts M.getMemoryObjects n s).1.zeroInitialized = s.zeroInitialized :=
  ((M.keepsZero opts n).processNode
    (fun src dest len h => absurd h (hkind src dest len)) s trivial).2

end MemoryModel

/-! ## What a `memcpy` copies -/

section Memcpy

variable [DecidableEq N]

/-- The flag of a target. -/
def zeroFlag (z : N → Bool) : PSNode N → Bool
  | .node n => z n
  | _ => false

/-- Set the flag of a target. -/
def setZeroFlag (z : N → Bool) : PSNode N → N → Bool
  | .node n => Function.update z n true
  | _ => z

variable (G : PointerGraph N) (opts : PointerAnalysisOptions)

/-- The flags after one pair of a source and a destination pointer. -/
def markZero (len : Offset) (z : N → Bool) (pr : Pointer N × Pointer N) : N → Bool :=
  if zeroFlag z pr.1.target && copiesWhole G pr.1 pr.2 len then setZeroFlag z pr.2.target else z

/-- The destinations for one source pointer, in the order of the loops of `processMemcpy`. -/
def destPairs (sptr : Pointer N) (dptrs : List (Pointer N)) : List (Pointer N × Pointer N) :=
  (dptrs.filter fun dptr => canBeDereferenced G dptr).map fun dptr => (sptr, dptr)

/-- The pairs that `processMemcpy` copies between. -/
def memcpyPairs (dptrs sptrs : List (Pointer N)) : List (Pointer N × Pointer N) :=
  (sptrs.filter fun sptr => canBeDereferenced G sptr).flatMap fun sptr => destPairs G sptr dptrs

variable {G}

/-- What is copied for one pair is there already: the null pointer of zeroed memory and the contents
of the source. -/
def AlreadyCopied (M : MemoryModel G κ) (n : N) (len : Offset) (s : State N κ) (z : N → Bool)
    (pr : Pointer N × Pointer N) : Prop :=
  ∀ d ∈ (M.getMemoryObjects n pr.2 s).2,
    ((zeroFlag z pr.1.target && !copiesWhole G pr.1 pr.2 len) = true →
      (s.cell d .unknown).Covers .nullPointer) ∧
    ∀ so ∈ (M.getMemoryObjects n pr.1 s).2, ∀ off ∈ s.offsets so, isCopied pr.1 len off = true →
      ∀ p ∈ s.cell so off, p ∈ s.cell d
        (copiedTo G opts pr.1 pr.2 ((s.objects d).elim .nullptr MemoryObject.node) off)

/-- What is copied for all pairs is there already; the flags are those that the pairs before leave. -/
def AllCopied (M : MemoryModel G κ) (n : N) (len : Offset) (s : State N κ) :
    (N → Bool) → List (Pointer N × Pointer N) → Prop
  | _, [] => True
  | z, pr :: rest =>
      AlreadyCopied opts M n len s z pr ∧ AllCopied M n len s (markZero G len z pr) rest

/-- The node is a `memcpy` that sets a flag that was not set, and everything that it copies is there
already. -/
def SilentlyZeroes (M : MemoryModel G κ) (n : N) (s : State N κ) : Prop :=
  ∃ src dest len, G.kind n = .memcpy src dest len ∧
    AllCopied opts M n len s s.zeroInitialized
      (memcpyPairs G (s.pts dest).pointers (s.pts src).pointers) ∧
    ∃ pr ∈ memcpyPairs G (s.pts dest).pointers (s.pts src).pointers,
      s.isZeroInitialized pr.1.target = true ∧ copiesWhole G pr.1 pr.2 len = true ∧
        s.isZeroInitialized pr.2.target = false

/-! ## When a `memcpy` reports nothing -/

omit [DecidableEq N] in
theorem isZeroInitialized_eq (s : State N κ) (x : PSNode N) :
    s.isZeroInitialized x = zeroFlag s.zeroInitialized x := by
  cases x <;> rfl

theorem zeroInitialized_set (x : PSNode N) (s : State N κ) :
    (State.setZeroInitialized x s).1.zeroInitialized = setZeroFlag s.zeroInitialized x := by
  cases x <;> rfl

variable {opts}

/-- A state with the memory of `s₀`, the flags `z` and the given objects. -/
structure Like (s₀ : State N κ) (z : N → Bool) (keys : List κ) (s : State N κ) : Prop where
  memory : s₀.SameMemory s
  zeroInitialized : s.zeroInitialized = z
  isSome : ∀ d ∈ keys, (s.objects d).isSome = true

variable {s₀ : State N κ} {z : N → Bool} {keys : List κ}

omit [DecidableEq N] in
theorem tracks_write {f : Step (State N κ)} {C : Prop} (hsilent : ∀ s, Step.Meets State.Silent f s)
    (hzero : ∀ s, (f s).1.zeroInitialized = s.zeroInitialized)
    (hiff : ∀ s, Like s₀ z keys s → ((f s).2 = false ↔ C)) :
    Step.Tracks (Like s₀ z keys) (Like s₀ z keys) f C := by
  intro s hs
  refine ⟨hiff s hs, fun h => ?_⟩
  have hsame := hsilent s h
  exact ⟨hs.memory.trans hsame, (hzero s).trans hs.zeroInitialized,
    fun d hd => hsame.isSome (hs.isSome d hd)⟩

omit [DecidableEq N] in
/-- The object that a write goes to is known by its contents. -/
theorem mem_cell_copiedTo {s : State N κ} (hs : s₀.SameMemory s) (d : κ)
    (sptr dptr p : Pointer N) (off : Offset) :
    p ∈ s.cell d (copiedTo G opts sptr dptr ((s.objects d).elim .nullptr MemoryObject.node) off) ↔
      p ∈ s₀.cell d
        (copiedTo G opts sptr dptr ((s₀.objects d).elim .nullptr MemoryObject.node) off) := by
  rw [hs.cell]
  cases ho : s₀.objects d with
  | none => simp [State.cell, ho]
  | some o =>
      obtain ⟨o', ho', hnode⟩ := hs.node d o ho
      rw [ho', Option.elim_some, Option.elim_some, hnode]

variable [DecidableEq κ]

theorem tracks_addNull {d : κ} (hd : d ∈ keys) :
    Step.Tracks (Like s₀ z keys) (Like s₀ z keys) (State.addToCell d .unknown .nullPointer)
      ((s₀.cell d .unknown).Covers .nullPointer) := by
  apply tracks_write
  · exact fun s => State.silent_modifyCell (fun _ => PointsToSet.add_of_report) rfl d _ s
  · exact fun s => State.zeroInitialized_modifyCell d _ _ s
  · intro s hs
    show (State.modifyCell d .unknown (PointsToSet.add .nullPointer) s).2 = false ↔ _
    rw [State.report_modifyCell (hs.isSome d hd), PointsToSet.add_report_iff, hs.memory.cell]

theorem tracks_copyEntry {d : κ} (hd : d ∈ keys) (so : κ) (sptr dptr : Pointer N)
    (len off : Offset) :
    Step.Tracks (Like s₀ z keys) (Like s₀ z keys) (copyEntry G opts sptr dptr len d so off)
      (isCopied sptr len off = true → ∀ p ∈ s₀.cell so off, p ∈ s₀.cell d
        (copiedTo G opts sptr dptr ((s₀.objects d).elim .nullptr MemoryObject.node) off)) := by
  apply tracks_write
  · exact fun s => Step.Meets.ite (h := Step.skip) rfl
      (fun _ => State.silent_copyToCell d _ (.cell so off) s) fun _ => State.Silent.composes.skip s
  · intro s
    rw [copyEntry]
    split
    · exact State.zeroInitialized_copyToCell d _ _ s
    · rfl
  · intro s hs
    rw [copyEntry]
    split
    · next hcopied =>
        simp only [hcopied, true_imp_iff]
        rw [State.report_copyToCell (hs.isSome d hd)]
        show (∀ p ∈ s.cell so off, _) ↔ _
        rw [hs.memory.cell]
        exact forall₂_congr fun p _ => mem_cell_copiedTo hs.memory d sptr dptr p off
    · next hcopied => simp [hcopied]

theorem tracks_copyEntries {d : κ} (hd : d ∈ keys) (so : κ) (sptr dptr : Pointer N)
    (len : Offset) :
    Step.Tracks (Like s₀ z keys) (Like s₀ z keys) (copyEntries G opts sptr dptr len d so)
      (∀ off ∈ s₀.offsets so, isCopied sptr len off = true → ∀ p ∈ s₀.cell so off, p ∈ s₀.cell d
        (copiedTo G opts sptr dptr ((s₀.objects d).elim .nullptr MemoryObject.node) off)) := by
  have hscan := Step.Tracks.scan (L := Like s₀ z keys) (fun s hs => hs.memory.offsets so)
    (f := copyEntry G opts sptr dptr len d so)
    (fun off _ => tracks_copyEntry hd so sptr dptr len off)
    ((Step.room_le_card none).trans Offset.card_le)
  exact hscan.congr (forall₂_congr fun off _ => by simp [Step.After])

variable (opts s₀) in
/-- One destination object. -/
theorem tracks_dest {d : κ} (hd : d ∈ keys) (null : Bool) (srcs : List κ) (sptr dptr : Pointer N)
    (len : Offset) :
    Step.Tracks (Like s₀ z keys) (Like s₀ z keys)
      (Step.andThen (if null then State.addToCell d .unknown .nullPointer else Step.skip)
        (Step.each (fun so => copyEntries G opts sptr dptr len d so) srcs))
      ((null = true → (s₀.cell d .unknown).Covers .nullPointer) ∧
        ∀ so ∈ srcs, ∀ off ∈ s₀.offsets so, isCopied sptr len off = true → ∀ p ∈ s₀.cell so off,
          p ∈ s₀.cell d
            (copiedTo G opts sptr dptr ((s₀.objects d).elim .nullptr MemoryObject.node) off)) := by
  apply Step.Tracks.andThen _ (.each fun so _ => tracks_copyEntries hd so sptr dptr len)
  cases null with
  | true => exact (tracks_addNull hd).congr ⟨fun hc _ => hc, fun hc => hc rfl⟩
  | false => exact Step.tracks_skip.congr ⟨fun _ => nofun, fun _ => trivial⟩

variable (opts) in
/-- The flags are set before anything is copied. -/
theorem tracks_processMemcpyObjects (srcs dests : List κ) (sptr dptr : Pointer N) (len : Offset) :
    Step.Tracks (Like s₀ z dests) (Like s₀ (markZero G len z (sptr, dptr)) dests)
      (processMemcpyObjects G opts srcs dests sptr dptr len)
      (∀ d ∈ dests,
        ((zeroFlag z sptr.target && !copiesWhole G sptr dptr len) = true →
          (s₀.cell d .unknown).Covers .nullPointer) ∧
        ∀ so ∈ srcs, ∀ off ∈ s₀.offsets so, isCopied sptr len off = true → ∀ p ∈ s₀.cell so off,
          p ∈ s₀.cell d
            (copiedTo G opts sptr dptr ((s₀.objects d).elim .nullptr MemoryObject.node) off)) := by
  intro s hs
  have hflag : s.isZeroInitialized sptr.target = zeroFlag z sptr.target := by
    rw [isZeroInitialized_eq, hs.zeroInitialized]
  -- setting the flag is never reported
  have hmark : Step.Tracks (fun t => t = s) (Like s₀ (markZero G len z (sptr, dptr)) dests)
      (if zeroFlag z sptr.target && copiesWhole G sptr dptr len then
        State.setZeroInitialized dptr.target else Step.skip) True := by
    rintro t rfl
    rw [markZero]
    split
    · have hsame := State.silent_setZeroInitialized dptr.target t
      have hreport : (State.setZeroInitialized dptr.target t).2 = false := by
        cases dptr.target <;> rfl
      refine ⟨⟨fun _ => trivial, fun _ => hreport⟩, fun h => ?_⟩
      exact ⟨hs.memory.trans (hsame h), by rw [zeroInitialized_set, hs.zeroInitialized],
        fun d hd => (hsame h).isSome (hs.isSome d hd)⟩
    · exact ⟨⟨fun _ => trivial, fun _ => rfl⟩, fun _ => hs⟩
  have hcopy := fun d (hd : d ∈ dests) => tracks_dest (G := G) opts s₀
    (z := markZero G len z (sptr, dptr)) hd
    (zeroFlag z sptr.target && !copiesWhole G sptr dptr len) srcs sptr dptr len
  have hall := (hmark.andThen (.each hcopy)).congr (iff_of_eq (true_and _))
  have heq : processMemcpyObjects G opts srcs dests sptr dptr len s = Step.andThen
      (if zeroFlag z sptr.target && copiesWhole G sptr dptr len then
        State.setZeroInitialized dptr.target else Step.skip)
      (Step.each (fun d => Step.andThen
        (if zeroFlag z sptr.target && !copiesWhole G sptr dptr len then
          State.addToCell d .unknown .nullPointer else Step.skip)
        (Step.each (fun so => copyEntries G opts sptr dptr len d so) srcs)) dests) s := by
    rw [processMemcpyObjects]
    rw [hflag]
  rw [heq]
  exact hall s rfl

omit [DecidableEq κ] in
theorem allCopied_append {M : MemoryModel G κ} {n : N} {len : Offset}
    (l₁ l₂ : List (Pointer N × Pointer N)) (z : N → Bool) :
    AllCopied opts M n len s₀ z (l₁ ++ l₂) ↔
      AllCopied opts M n len s₀ z l₁ ∧ AllCopied opts M n len s₀ (l₁.foldl (markZero G len) z) l₂ := by
  induction l₁ generalizing z with
  | nil => simp [AllCopied]
  | cons pr l₁ ih => simp only [List.cons_append, AllCopied, ih, List.foldl_cons, and_assoc]

section Loops

variable {M : MemoryModel G κ} {n : N} {src dest : PSNode N} {len : Offset}
variable (hkind : G.kind n = .memcpy src dest len)
include hkind

variable (opts) in
/-- One pair of pointers. -/
theorem tracks_pair (sptr dptr : Pointer N) :
    Step.Tracks (Like s₀ z []) (Like s₀ (markZero G len z (sptr, dptr)) [])
      (withObjects M.getMemoryObjects n dptr fun dests =>
        processMemcpyObjects G opts (M.getMemoryObjects n sptr s₀).2 dests sptr dptr len)
      (AlreadyCopied opts M n len s₀ z (sptr, dptr)) := by
  intro s hs
  have hfinds := M.finds n dptr s
  have hkeys := M.ofMemcpy n src dest len hkind dptr s₀ s
  have hlike : Like s₀ z (M.getMemoryObjects n dptr s₀).2 (M.getMemoryObjects n dptr s).1 :=
    ⟨hs.memory.trans (State.sameMemory_of_finds hfinds),
      hfinds.zeroInitialized.trans hs.zeroInitialized, fun d hd => hfinds.isSome d (hkeys ▸ hd)⟩
  have hpair := tracks_processMemcpyObjects (G := G) opts (M.getMemoryObjects n sptr s₀).2
    (M.getMemoryObjects n dptr s₀).2 sptr dptr len _ hlike
  rw [withObjects]
  rw [← hkeys]
  refine ⟨hpair.1, fun h => ?_⟩
  have hafter := hpair.2 h
  exact ⟨hafter.memory, hafter.zeroInitialized, fun d hd => by cases hd⟩

variable (opts) in
/-- The loop over the destination pointers. -/
theorem tracks_destPairs (sptr : Pointer N) (dptrs : List (Pointer N)) :
    ∀ z, Step.Tracks (Like s₀ z [])
      (Like s₀ ((destPairs G sptr dptrs).foldl (markZero G len) z) [])
      (Step.each (memcpyDest G opts M.getMemoryObjects n sptr len (M.getMemoryObjects n sptr s₀).2)
        dptrs)
      (AllCopied opts M n len s₀ z (destPairs G sptr dptrs)) := by
  induction dptrs with
  | nil => exact fun z => Step.tracks_skip
  | cons dptr dptrs ih =>
      intro z
      cases hderef : canBeDereferenced G dptr with
      | false =>
          have hpairs : destPairs G sptr (dptr :: dptrs) = destPairs G sptr dptrs := by
            simp [destPairs, hderef]
          rw [hpairs]
          refine (Step.Tracks.andThen ?_ (ih z)).congr (iff_of_eq (true_and _))
          simp only [memcpyDest, hderef, Bool.not_false, if_true]
          exact Step.tracks_skip
      | true =>
          have hpairs : destPairs G sptr (dptr :: dptrs) =
              (sptr, dptr) :: destPairs G sptr dptrs := by
            simp [destPairs, hderef]
          rw [hpairs]
          refine Step.Tracks.andThen ?_ (ih _)
          simp only [memcpyDest, hderef, Bool.not_true, Bool.false_eq_true, if_false]
          exact tracks_pair opts hkind sptr dptr

variable (opts) in
/-- The loop over the source pointers. -/
theorem tracks_memcpyPairs (sptrs : List (Pointer N)) :
    ∀ z, Step.Tracks (Like s₀ z [])
      (Like s₀ ((memcpyPairs G (s₀.pts dest).pointers sptrs).foldl (markZero G len) z) [])
      (Step.each (memcpySource G opts M.getMemoryObjects n dest len) sptrs)
      (AllCopied opts M n len s₀ z (memcpyPairs G (s₀.pts dest).pointers sptrs)) := by
  induction sptrs with
  | nil => exact fun z => Step.tracks_skip
  | cons sptr sptrs ih =>
      intro z
      cases hderef : canBeDereferenced G sptr with
      | false =>
          -- the pointer is skipped
          have hpairs : memcpyPairs G (s₀.pts dest).pointers (sptr :: sptrs) =
              memcpyPairs G (s₀.pts dest).pointers sptrs := by
            simp [memcpyPairs, hderef]
          rw [hpairs]
          refine (Step.Tracks.andThen ?_ (ih z)).congr (iff_of_eq (true_and _))
          simp only [memcpySource, hderef, Bool.not_false, if_true]
          exact Step.tracks_skip
      | true =>
          have hpairs : memcpyPairs G (s₀.pts dest).pointers (sptr :: sptrs) =
              destPairs G sptr (s₀.pts dest).pointers ++
                memcpyPairs G (s₀.pts dest).pointers sptrs := by
            simp [memcpyPairs, hderef]
          rw [hpairs, allCopied_append, List.foldl_append]
          refine Step.Tracks.andThen ?_ (ih _)
          simp only [memcpySource, hderef, Bool.not_true, Bool.false_eq_true, if_false]
          intro s hs
          have hfinds := M.finds n sptr s
          have hlike : Like s₀ z [] (M.getMemoryObjects n sptr s).1 :=
            ⟨hs.memory.trans (State.sameMemory_of_finds hfinds),
              hfinds.zeroInitialized.trans hs.zeroInitialized, fun d hd => by cases hd⟩
          have hdests := tracks_destPairs (M := M) opts hkind sptr
            (s₀.pts dest).pointers z _ hlike
          simp only [withObjects]
          rw [hlike.memory.pts, M.ofMemcpy n src dest len hkind sptr s s₀]
          exact hdests

variable (opts) in
/-- **When a `memcpy` reports nothing**, and the flags that it leaves then. -/
theorem tracks_processMemcpy (s : State N κ) :
    ((processNode G opts M.getMemoryObjects n s).2 = false ↔
      AllCopied opts M n len s s.zeroInitialized
        (memcpyPairs G (s.pts dest).pointers (s.pts src).pointers)) ∧
    ((processNode G opts M.getMemoryObjects n s).2 = false →
      (processNode G opts M.getMemoryObjects n s).1.zeroInitialized =
        (memcpyPairs G (s.pts dest).pointers (s.pts src).pointers).foldl (markZero G len)
          s.zeroInitialized) := by
  have hlike : Like s s.zeroInitialized [] s := ⟨.refl s, rfl, fun d hd => by cases hd⟩
  have hloop := tracks_memcpyPairs (M := M) opts hkind (s.pts src).pointers
    s.zeroInitialized s hlike
  have heq : processNode G opts M.getMemoryObjects n s =
      processMemcpy G opts M.getMemoryObjects n src dest len s := by
    rw [processNode]
    rw [hkind]
  rw [heq]
  exact ⟨hloop.1, fun h => (hloop.2 h).zeroInitialized⟩

end Loops

/-! ## When the flags change -/

omit [DecidableEq κ]

theorem zeroFlag_setZeroFlag (z : N → Bool) (x y : PSNode N) (h : zeroFlag z y = true) :
    zeroFlag (setZeroFlag z x) y = true := by
  cases x with
  | node n =>
      cases y with
      | node m =>
          by_cases hm : m = n
          · simp [zeroFlag, setZeroFlag, hm]
          · simpa [zeroFlag, setZeroFlag, hm] using h
      | _ => cases h
  | _ => exact h

theorem zeroFlag_markZero {len : Offset} {z : N → Bool} {y : PSNode N} (pr : Pointer N × Pointer N)
    (h : zeroFlag z y = true) : zeroFlag (markZero G len z pr) y = true := by
  rw [markZero]
  split
  · exact zeroFlag_setZeroFlag z _ y h
  · exact h

theorem zeroFlag_foldl {len : Offset} {y : PSNode N} (l : List (Pointer N × Pointer N)) :
    ∀ {z : N → Bool}, zeroFlag z y = true → zeroFlag (l.foldl (markZero G len) z) y = true := by
  induction l with
  | nil => exact fun h => h
  | cons pr l ih => exact fun h => ih (zeroFlag_markZero pr h)

/-- A flag that is set already does not change. -/
theorem markZero_of_marked {len : Offset} {z : N → Bool} {pr : Pointer N × Pointer N}
    (h : zeroFlag z pr.1.target = true → copiesWhole G pr.1 pr.2 len = true →
      zeroFlag z pr.2.target = true) : markZero G len z pr = z := by
  rw [markZero]
  split
  · next hmark =>
      obtain ⟨hsrc, hwhole⟩ := Bool.and_eq_true_iff.1 hmark
      have hset := h hsrc hwhole
      cases htarget : pr.2.target with
      | node n =>
          rw [htarget] at hset
          exact Function.update_eq_self_iff.2 hset.symm
      | _ => rfl
  · rfl

/-- A destination that can be dereferenced is a node, and its flag can be set. -/
theorem zeroFlag_of_mark {len : Offset} {z : N → Bool} {pr : Pointer N × Pointer N}
    (hderef : canBeDereferenced G pr.2 = true) (hsrc : zeroFlag z pr.1.target = true)
    (hwhole : copiesWhole G pr.1 pr.2 len = true) :
    zeroFlag (markZero G len z pr) pr.2.target = true := by
  rw [markZero]
  rw [if_pos (by rw [hsrc, hwhole]; rfl)]
  cases htarget : pr.2.target with
  | node n => simp [zeroFlag, setZeroFlag]
  | _ => simp [canBeDereferenced, Pointer.isValid, Pointer.isNull, Pointer.isUnknown,
      Pointer.isInvalidated, htarget] at hderef

theorem mem_memcpyPairs {dptrs sptrs : List (Pointer N)} {pr : Pointer N × Pointer N}
    (h : pr ∈ memcpyPairs G dptrs sptrs) : canBeDereferenced G pr.2 = true := by
  obtain ⟨sptr, -, hmem⟩ := List.mem_flatMap.1 h
  obtain ⟨dptr, hdptr, rfl⟩ := List.mem_map.1 hmem
  exact (List.mem_filter.1 hdptr).2

/-- **The flags change** exactly when a whole object is copied from a zeroed one onto one that is
not marked. -/
theorem foldl_markZero_eq (len : Offset) (l : List (Pointer N × Pointer N))
    (hderef : ∀ pr ∈ l, canBeDereferenced G pr.2 = true) (z : N → Bool) :
    l.foldl (markZero G len) z = z ↔ ¬ ∃ pr ∈ l, zeroFlag z pr.1.target = true ∧
      copiesWhole G pr.1 pr.2 len = true ∧ zeroFlag z pr.2.target = false := by
  constructor
  · rintro heq ⟨pr, hpr, hsrc, hwhole, hdest⟩
    obtain ⟨l₁, l₂, rfl⟩ := List.append_of_mem hpr
    have hset : zeroFlag ((l₁ ++ pr :: l₂).foldl (markZero G len) z) pr.2.target = true := by
      rw [List.foldl_append, List.foldl_cons]
      apply zeroFlag_foldl
      exact zeroFlag_of_mark (hderef pr hpr) (zeroFlag_foldl l₁ hsrc) hwhole
    rw [heq, hdest] at hset
    cases hset
  · intro hnone
    induction l with
    | nil => rfl
    | cons pr l ih =>
        have hpr : markZero G len z pr = z := by
          apply markZero_of_marked
          intro hsrc hwhole
          by_contra hnot
          exact hnone ⟨pr, List.mem_cons_self, hsrc, hwhole, Bool.eq_false_iff.2 hnot⟩
        rw [List.foldl_cons, hpr]
        apply ih fun pr' hpr' => hderef pr' (List.mem_cons_of_mem pr hpr')
        rintro ⟨pr', hpr', hmark⟩
        exact hnone ⟨pr', List.mem_cons_of_mem pr hpr', hmark⟩

end Memcpy

namespace MemoryModel

variable [DecidableEq N] [DecidableEq κ]
variable {G : PointerGraph N} (M : MemoryModel G κ) (opts : PointerAnalysisOptions)

/-- **What is not reported is not altered**, except where a node silently zeroes: for every memory
model, state and node, an unreported step alters nothing that processing a node reads exactly when
the node does not silently zero. -/
theorem unreported_iff (n : N) (s : State N κ) :
    ((processNode G opts M.getMemoryObjects n s).2 = false →
      s.Unaltered (processNode G opts M.getMemoryObjects n s).1) ↔
      ¬ SilentlyZeroes opts M n s := by
  by_cases hkind : ∃ src dest len, G.kind n = .memcpy src dest len
  · obtain ⟨src, dest, len, hkind⟩ := hkind
    obtain ⟨hreport, hzero⟩ := tracks_processMemcpy (M := M) opts hkind s
    have hflags := foldl_markZero_eq (G := G) len
      (memcpyPairs G (s.pts dest).pointers (s.pts src).pointers)
      (fun pr hpr => mem_memcpyPairs hpr) s.zeroInitialized
    constructor
    · rintro h ⟨src', dest', len', hkind', hcopied, hmark⟩
      obtain ⟨rfl, rfl, rfl⟩ : src = src' ∧ dest = dest' ∧ len = len' := by
        simpa [hkind] using hkind'
      have hsilent := hreport.2 hcopied
      have hsame := (hzero hsilent).symm.trans (h hsilent).zeroInitialized
      simp only [isZeroInitialized_eq] at hmark
      exact hflags.1 hsame hmark
    · intro hnot hsilent
      refine ⟨M.sameMemory_of_report opts n s hsilent, (hzero hsilent).trans (hflags.2 ?_)⟩
      rintro hmark
      apply hnot
      simp only [← isZeroInitialized_eq] at hmark
      exact ⟨src, dest, len, hkind, hreport.1 hsilent, hmark⟩
  · have hother : ∀ src dest len, G.kind n ≠ .memcpy src dest len :=
      fun src dest len h => hkind ⟨src, dest, len, h⟩
    refine ⟨fun _ => ?_, fun _ hsilent => ?_⟩
    · rintro ⟨src, dest, len, h, -⟩
      exact hother src dest len h
    · exact ⟨M.sameMemory_of_report opts n s hsilent, M.zeroInitialized_processNode opts hother s⟩

end MemoryModel

/-- `memcpy(b, a, 8)` for a zeroed `a` and a `b` that is not, both of 8 bytes. -/
def zeroedCopy : PointerGraph (Fin 3) where
  kind := ![.alloc, .alloc, .memcpy (.node 0) (.node 1) 8]
  successors := ![[1], [2], []]
  predecessors := ![[], [0], [1]]
  callees := fun _ => []
  returnSites := fun _ => []
  size := ![8, 8, 0]
  isHeap := fun _ => false
  isGlobal := fun _ => false
  zeroInitialized := ![true, false, false]
  subgraphs := [0]
  parent := fun _ => some 0
  globals := []
  root := 0
  mem_predecessors := by decide
  nodup_globals := List.nodup_nil

/-- The `memcpy` reports no change and marks `b` as zeroed. -/
theorem memcpy_zeroes_silently :
    (FI.step zeroedCopy {} 2 (.initial zeroedCopy)).2 = false ∧
      ¬ (State.initial zeroedCopy).Unaltered (FI.step zeroedCopy {} 2 (.initial zeroedCopy)).1 := by
  refine ⟨by decide, fun h => ?_⟩
  have hflag : (FI.step zeroedCopy {} 2 (.initial zeroedCopy)).1.zeroInitialized 1 = true := by
    decide
  rw [h.zeroInitialized] at hflag
  cases hflag

end Cape.PointerAnalysis
