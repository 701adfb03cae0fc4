import Cape.PointerAnalysis.Execution
import Cape.PointerAnalysis.MemoryModel

/-!
# What processing a node transfers

A set admits a pointer that it covers, and everything when it holds the unknown pointer. A node
transfers facts: what its operands and the memory that it reads admit, the node or the memory that it
writes admits after it was processed (`MemoryModel.admits_load`, `admits_store`, `admits_memcpy`,
`admits_gep`, `admits_copy`).
-/

set_option autoImplicit false

namespace Cape.PointerAnalysis

open Cape.Library

universe u v

variable {N : Type u} {κ : Type v}

/-- The set covers the pointer or holds the unknown pointer, which covers everything. -/
def PointsToSet.Admits (S : PointsToSet N) (p : Pointer N) : Prop :=
  S.Covers p ∨ Pointer.unknownPointer ∈ S

namespace PointsToSet

theorem Admits.mono {S T : PointsToSet N} (h : S ≤ T) {p : Pointer N} (hp : S.Admits p) :
    T.Admits p := by
  obtain hp | hp := hp
  · exact Or.inl (Grows.covers h hp)
  · exact Or.inr (Grows.widen_mem h (p := .unknownPointer) hp)

theorem Admits.not_empty {S : PointsToSet N} {p : Pointer N} (h : S.Admits p) :
    ¬ S.isEmpty = true := by
  intro hempty
  have hnil : S.pointers = [] := List.isEmpty_iff.1 hempty
  have hnot : ∀ q : Pointer N, ¬ q ∈ S := by
    intro q hq
    have hq : q ∈ S.pointers := hq
    rw [hnil] at hq
    cases hq
  obtain (hp | hp) | hp := h
  · exact hnot _ hp
  · exact hnot _ hp
  · exact hnot _ hp

variable [DecidableEq N]

theorem admits_add (S : PointsToSet N) (p : Pointer N) : (add p S).1.Admits p :=
  Or.inl (covers_add p S)

theorem admits_add_unknown (S : PointsToSet N) (p : Pointer N) :
    (add .unknownPointer S).1.Admits p := by
  obtain h | h := covers_add .unknownPointer S
  · exact Or.inr h
  · exact Or.inr h

theorem admits_union (S : PointsToSet N) {T : PointsToSet N} {p : Pointer N} (h : T.Admits p) :
    (union T S).1.Admits p := by
  obtain h | h := h
  · exact Or.inl (covers_union S h)
  · exact Or.inr ((mem_union S T _).2 (Or.inr h))

/-- A property of sets that are not empty, which a set keeps when it grows and gets from a set that
comes into it. -/
structure Kept (A : PointsToSet N → Prop) : Prop where
  mono : ∀ {S T : PointsToSet N}, S ≤ T → A S → A T
  union : ∀ (S : PointsToSet N) {T : PointsToSet N}, A T → A (union T S).1
  not_empty : ∀ {S : PointsToSet N}, A S → ¬ S.isEmpty = true

theorem kept_admits (p : Pointer N) : Kept fun S : PointsToSet N => S.Admits p :=
  ⟨fun h hp => hp.mono h, fun S _ h => admits_union S h, Admits.not_empty⟩

theorem kept_covers (p : Pointer N) : Kept fun S : PointsToSet N => S.Covers p :=
  ⟨fun h hp => Grows.covers h hp, fun S _ h => covers_union S h, fun h => Admits.not_empty (Or.inl h)⟩

end PointsToSet

/-- A pointer at a place. -/
abbrev Fact (N : Type u) (κ : Type v) := Place N κ × Pointer N

/-- The state admits the pointer at the place; what is at the unknown offset of an object may be
anywhere in it. -/
def State.Admits (s : State N κ) : Fact N κ → Prop
  | (.node x, p) => (s.pts x).Admits p
  | (.cell k off, p) => (s.cell k off).Admits p ∨ (s.cell k .unknown).Admits p

namespace State

/-- Later states: nothing is lost. -/
def Le (s t : State N κ) : Prop := Rises s t false

theorem Le.refl (s : State N κ) : Le s s := .of_eq rfl rfl

theorem Le.trans {s t u : State N κ} (h : Le s t) (h' : Le t u) : Le s u := Rises.composes.andThen h h'

theorem Rises.le {s t : State N κ} {b : Bool} (h : Rises s t b) : Le s t :=
  ⟨h.read, h.offsets, h.objects, fun h => by cases h⟩

theorem Admits.mono {f : Fact N κ} {s t : State N κ} (h : Le s t) (hf : s.Admits f) : t.Admits f := by
  obtain ⟨x | ⟨k, off⟩, p⟩ := f
  · exact PointsToSet.Admits.mono (h.read (.node x)) hf
  · exact hf.imp (PointsToSet.Admits.mono (h.read (.cell k off)))
      (PointsToSet.Admits.mono (h.read (.cell k .unknown)))

/-- What is at an offset of an object, where it may also be at the unknown offset. -/
def Holds (A : PointsToSet N → Prop) (k : κ) (off : Offset) (s : State N κ) : Prop :=
  A (s.cell k off) ∨ A (s.cell k .unknown)

variable [DecidableEq N] [DecidableEq κ]

section Kept

variable {A : PointsToSet N → Prop} (hA : PointsToSet.Kept A)
include hA

omit [DecidableEq κ] in
theorem mem_offsets_of_kept {s : State N κ} {k : κ} {off : Offset} (h : A (s.cell k off)) :
    off ∈ s.offsets k := by
  by_contra hnot
  rw [cell_of_not_mem hnot] at h
  exact hA.not_empty h rfl

omit [DecidableEq κ] in
theorem Holds.mono {k : κ} {off : Offset} {s t : State N κ} (h : Le s t) (hs : s.Holds A k off) :
    t.Holds A k off :=
  hs.imp (hA.mono (h.read (.cell k off))) (hA.mono (h.read (.cell k .unknown)))

theorem kept_copyToCell {k : κ} (off : Offset) (src : Place N κ) {s : State N κ}
    (hk : (s.objects k).isSome = true) (h : A (s.read src)) :
    A ((copyToCell k off src s).1.cell k off) := by
  rw [copyToCell]
  rw [if_neg (hA.not_empty h), cell_modifyCell hk, if_pos ⟨rfl, rfl⟩]
  exact hA.union _ h

end Kept

omit [DecidableEq κ] in
theorem admits_addToNode (n : N) (p : Pointer N) (s : State N κ) :
    ((addToNode n p s).1.pts (.node n)).Admits p := by
  rw [addToNode]
  rw [pts_modifyNode, if_pos rfl]
  exact PointsToSet.admits_add _ p

omit [DecidableEq κ] in
theorem admits_addUnknown (n : N) (p : Pointer N) (s : State N κ) :
    ((addToNode n .unknownPointer s).1.pts (.node n)).Admits p := by
  rw [addToNode]
  rw [pts_modifyNode, if_pos rfl]
  exact PointsToSet.admits_add_unknown _ p

omit [DecidableEq κ] in
theorem admits_copyToNode (n : N) {src : Place N κ} {p : Pointer N} {s : State N κ}
    (h : (s.read src).Admits p) : ((copyToNode n src s).1.pts (.node n)).Admits p := by
  rw [copyToNode]
  rw [pts_modifyNode, if_pos rfl]
  exact PointsToSet.admits_union _ h

end State

/-- A pointer to an allocation can be dereferenced. -/
theorem canBeDereferenced_alloc [DecidableEq N] {G : PointerGraph N} {a : N}
    (ha : G.kind a = .alloc) {p : Pointer N} (hp : p.target = .node a) :
    p.isUnknown = false ∧ canBeDereferenced G p = true := by
  simp [canBeDereferenced, Pointer.isValid, Pointer.isNull, Pointer.isUnknown,
    Pointer.isInvalidated, hp, isFunction, ha]

/-! ## Loads -/

section Loops

theorem State.pts_admits_mono {x : PSNode N} {p : Pointer N} {s t : State N κ} (h : s.Le t)
    (hs : (s.pts x).Admits p) : (t.pts x).Admits p :=
  PointsToSet.Admits.mono (h.read (.node x)) hs

/-- What a loop establishes at one of its elements, it establishes. -/
theorem each_establishes {α : Type*} {f : α → Step (State N κ)}
    (hle : ∀ a s, State.Le s (f a s).1) {P : State N κ → Prop}
    (hP : ∀ {s t : State N κ}, s.Le t → P s → P t) {l : List α} {a : α} (ha : a ∈ l)
    {s : State N κ} (hf : ∀ t, s.Le t → P (f a t).1) : P (Step.each f l s).1 :=
  Step.each_visits State.Le.refl (fun h h' => h.trans h') hle hP ha hf

end Loops

variable [DecidableEq N] [DecidableEq κ]

omit [DecidableEq κ] in
theorem le_copyToNode (n : N) (src : Place N κ) (s : State N κ) :
    s.Le (State.copyToNode n src s).1 :=
  (State.rises_modifyNode (State.setRises_union (s.read src)) n s).le

omit [DecidableEq κ] in
theorem le_addToNode (n : N) (p : Pointer N) (s : State N κ) : s.Le (State.addToNode n p s).1 :=
  (State.rises_modifyNode (State.setRises_add p) n s).le

omit [DecidableEq κ] in
theorem admits_loadObject {n : N} {q p : Pointer N} {k : κ} {o : Offset} {s : State N κ}
    (hq : q.offset = o ∨ q.offset = .unknown) (hcell : s.Admits (.cell k o, p)) :
    ((loadObject n q k s).1.pts (.node n)).Admits p := by
  -- an entry that admits the pointer, at the offset or at the unknown one
  have hentry : ∃ off, (off = o ∨ off = .unknown) ∧ (s.cell k off).Admits p := by
    obtain h | h := hcell
    · exact ⟨o, Or.inl rfl, h⟩
    · exact ⟨.unknown, Or.inr rfl, h⟩
  obtain ⟨off, hoff, hadmits⟩ := hentry
  have hmem := State.mem_offsets_of_kept (PointsToSet.kept_admits p) hadmits
  rw [loadObject]
  split
  · -- everything in the object is loaded
    have hfirst : s.Le ((if (s.offsets k).isEmpty && s.isZeroInitialized q.target then
        State.addToNode n .nullPointer else Step.skip) s).1 := by
      split
      · exact le_addToNode n _ s
      · exact .refl s
    refine each_establishes (f := fun off => State.copyToNode n (.cell k off))
      (fun off s => le_copyToNode n (.cell k off) s) State.pts_admits_mono hmem fun t ht => ?_
    exact State.admits_copyToNode n
      (PointsToSet.Admits.mono ((hfirst.trans ht).read (.cell k off)) hadmits)
  · next hknown =>
      obtain rfl : q.offset = o := by
        obtain h | h := hq
        · exact h
        · exact absurd ((Offset.isUnknown_iff _).2 h) hknown
      obtain rfl | rfl := hoff
      · -- the entry at the offset is loaded first
        have hlast : ∀ t : State N κ, t.Le
            ((if Offset.unknown ∈ t.offsets k then State.copyToNode n (.cell k .unknown) t
              else (t, false)) : State N κ × Bool).1 := by
          intro t
          split
          · exact le_copyToNode n _ t
          · exact .refl t
        rw [if_pos hmem]
        exact State.pts_admits_mono (hlast _) (State.admits_copyToNode n hadmits)
      · -- then the one at the unknown offset
        have hfirst : s.Le ((if q.offset ∈ s.offsets k then State.copyToNode n (.cell k q.offset)
            else if s.isZeroInitialized q.target then State.addToNode n .nullPointer
            else Step.skip) s).1 := by
          split
          · exact le_copyToNode n _ s
          · split
            · exact le_addToNode n _ s
            · exact .refl s
        simp only [Step.andThen]
        rw [if_pos (hfirst.offsets k _ hmem)]
        exact State.admits_copyToNode n
          (PointsToSet.Admits.mono (hfirst.read (.cell k .unknown)) hadmits)

section Offsets

variable {G : PointerGraph N} (opts : PointerAnalysisOptions)

omit [DecidableEq N] [DecidableEq κ]

theorem gepPointer_cases (p : Pointer N) (off : Offset) :
    gepPointer G opts p off = ⟨p.target, ⟨p.offset.offset + off.offset⟩⟩ ∨
      gepPointer G opts p off = ⟨p.target, .unknown⟩ := by
  unfold gepPointer
  extract_lets newOffset
  split
  · next h =>
      by_cases hunknown : (p.offset.isUnknown || off.isUnknown) = true
      · have hnew : newOffset = .unknown := if_pos hunknown
        exact absurd (hnew ▸ h.2) (Offset.not_unknown_lt _)
      · have hnew : newOffset = ⟨p.offset.offset + off.offset⟩ := if_neg hunknown
        exact Or.inl (by rw [hnew])
  · exact Or.inr rfl

theorem gepPointer_unknown (p : Pointer N) {off : Offset}
    (h : p.offset = .unknown ∨ off = .unknown) :
    gepPointer G opts p off = ⟨p.target, .unknown⟩ := by
  unfold gepPointer
  extract_lets newOffset
  have hnew : newOffset = .unknown := if_pos (by
    obtain h | h := h
    · simp [h]
    · simp [h])
  rw [if_neg]
  rintro ⟨-, hlt⟩
  exact Offset.not_unknown_lt _ (hnew ▸ hlt)

end Offsets

namespace MemoryModel

variable {G : PointerGraph N} (M : MemoryModel G κ) (opts : PointerAnalysisOptions)

omit [DecidableEq N] [DecidableEq κ] in
theorem le_getMemoryObjects (n : N) (p : Pointer N) (s : State N κ) :
    s.Le (M.getMemoryObjects n p s).1 := (M.finds n p s).rises

/-- **A load admits what is in memory.** -/
theorem admits_load {n a : N} {op : PSNode N} {o : Offset} {k : κ} {p : Pointer N} {s : State N κ}
    (hkind : G.kind n = .load op) (ha : G.kind a = .alloc) (hop : (s.pts op).Admits ⟨.node a, o⟩)
    (hcell : s.Admits (.cell k o, p))
    (hkey : ∀ q t, s.Le t → q.target = .node a → k ∈ (M.getMemoryObjects n q t).2) :
    ((processNode G opts M.getMemoryObjects n s).1.pts (.node n)).Admits p := by
  have heq : processNode G opts M.getMemoryObjects n s =
      Step.each (loadPointer G M.getMemoryObjects n) (s.pts op).pointers s := by
    rw [processNode_load hkind]
    rfl
  rw [heq]
  have hle : ∀ q t, State.Le t (loadPointer G M.getMemoryObjects n q t).1 := fun q t =>
    ((M.rises opts n).loadPointer trivial t trivial).2.le
  -- one of the pointers of the operand leads to the object
  have hpointer : ∀ q : Pointer N, q ∈ (s.pts op).pointers → q.target = .node a →
      (q.offset = o ∨ q.offset = .unknown) →
      ((Step.each (loadPointer G M.getMemoryObjects n) (s.pts op).pointers s).1.pts
        (.node n)).Admits p := by
    intro q hq htarget hoff
    refine each_establishes hle State.pts_admits_mono hq fun t ht => ?_
    obtain ⟨hunknown, hderef⟩ := canBeDereferenced_alloc ha htarget
    have hobjs := hkey q t ht htarget
    have hne : ¬ (M.getMemoryObjects n q t).2.isEmpty = true := by
      intro hempty
      rw [List.isEmpty_iff.1 hempty] at hobjs
      cases hobjs
    simp only [loadPointer, hunknown, hderef, Bool.not_true, Bool.false_eq_true, if_false,
      withObjects, if_neg hne]
    refine each_establishes (fun k t => ((M.rises opts n).loadObject q k t trivial).2.le)
      State.pts_admits_mono hobjs fun u hu => ?_
    exact admits_loadObject hoff
      (State.Admits.mono (ht.trans ((M.le_getMemoryObjects n q t).trans hu)) hcell)
  obtain (hq | hq) | hq := hop
  · exact hpointer _ hq rfl (Or.inl rfl)
  · exact hpointer _ hq rfl (Or.inr rfl)
  · refine each_establishes hle State.pts_admits_mono hq fun t _ => ?_
    exact State.admits_addUnknown n p t

/-! ## Copies and GEPs -/

/-- **A cast or a PHI admits what its operands admit.** -/
theorem admits_copy {n : N} {op : PSNode N} {p : Pointer N} {s : State N κ}
    (hkind : G.kind n = .cast op ∨ ∃ ops, G.kind n = .phi ops ∧ op ∈ ops)
    (hop : (s.pts op).Admits p) :
    ((processNode G opts M.getMemoryObjects n s).1.pts (.node n)).Admits p := by
  obtain hkind | ⟨ops, hkind, hmem⟩ := hkind
  · have heq : processNode G opts M.getMemoryObjects n s = State.copyToNode n (.node op) s := by
      rw [processNode_cast hkind]
    rw [heq]
    exact State.admits_copyToNode n hop
  · have heq : processNode G opts M.getMemoryObjects n s =
        Step.each (fun op => State.copyToNode n (.node op)) ops s := by
      rw [processNode_phi hkind]
      rfl
    rw [heq]
    refine each_establishes (fun op t => le_copyToNode n (.node op) t) State.pts_admits_mono hmem
      fun t ht => ?_
    exact State.admits_copyToNode n (State.pts_admits_mono ht hop)

/-- **A GEP admits the shifted pointers.** -/
theorem admits_gep {n : N} {source : PSNode N} {off o : Offset} {p : Pointer N} {s : State N κ}
    (hkind : G.kind n = .gep source off) (hsource : (s.pts source).Admits p)
    (hoff : off = .unknown ∨ o = ⟨p.offset.offset + off.offset⟩) :
    ((processNode G opts M.getMemoryObjects n s).1.pts (.node n)).Admits ⟨p.target, o⟩ := by
  have heq : processNode G opts M.getMemoryObjects n s =
      Step.each (fun p => State.addToNode n (gepPointer G opts p off)) (s.pts source).pointers s := by
    rw [processNode_gep hkind]
    rfl
  rw [heq]
  have hle : ∀ (q : Pointer N) (t : State N κ),
      State.Le t (State.addToNode n (gepPointer G opts q off) t).1 :=
    fun q t => le_addToNode n _ t
  -- the shifted pointer, or its target at the unknown offset, is added
  have hadd : ∀ q : Pointer N, q ∈ (s.pts source).pointers →
      (gepPointer G opts q off = ⟨p.target, o⟩ ∨ gepPointer G opts q off = ⟨p.target, .unknown⟩) →
      ((Step.each (fun p => State.addToNode n (gepPointer G opts p off))
        (s.pts source).pointers s).1.pts (.node n)).Admits ⟨p.target, o⟩ := by
    intro q hq hshift
    refine each_establishes hle State.pts_admits_mono hq fun t _ => ?_
    have hadmits := State.admits_addToNode (κ := κ) n (gepPointer G opts q off) t
    obtain h | h := hshift
    · rwa [h] at hadmits ⊢
    · rw [h] at hadmits ⊢
      obtain (hp | hp) | hp := hadmits
      · exact Or.inl (Or.inr hp)
      · exact Or.inl (Or.inr hp)
      · exact Or.inr hp
  obtain (hp | hp) | hp := hsource
  · apply hadd p hp
    obtain rfl | rfl := hoff
    · exact Or.inr (gepPointer_unknown opts p (Or.inr rfl))
    · exact gepPointer_cases opts p off
  · exact hadd p.widen hp (Or.inr (gepPointer_unknown opts p.widen (Or.inl rfl)))
  · refine each_establishes hle State.pts_admits_mono hp fun t _ => ?_
    rw [gepPointer_unknown opts .unknownPointer (Or.inl rfl)]
    exact State.admits_addUnknown n _ t

/-! ## Stores -/

/-- **A store writes what its value admits.** -/
theorem admits_store {n a : N} {value address : PSNode N} {o : Offset} {k : κ} {p : Pointer N}
    {s : State N κ} (hkind : G.kind n = .store value address) (ha : G.kind a = .alloc)
    (haddress : (s.pts address).Covers ⟨.node a, o⟩) (hvalue : (s.pts value).Admits p)
    (hkey : ∀ q t, s.Le t → q.target = .node a → k ∈ (M.getMemoryObjects n q t).2) :
    (processNode G opts M.getMemoryObjects n s).1.Admits (.cell k o, p) := by
  have heq : processNode G opts M.getMemoryObjects n s =
      Step.each (storePointer G M.getMemoryObjects n value) (s.pts address).pointers s := by
    rw [processNode_store hkind]
    rfl
  rw [heq]
  have hpointer : ∀ q : Pointer N, q ∈ (s.pts address).pointers → q.target = .node a →
      (q.offset = o ∨ q.offset = .unknown) →
      (Step.each (storePointer G M.getMemoryObjects n value) (s.pts address).pointers s).1.Admits
        (.cell k o, p) := by
    intro q hq htarget hoff
    refine each_establishes (fun q t => ((M.rises opts n).storePointer value trivial t trivial).2.le)
      (P := fun t => t.Admits (.cell k o, p)) State.Admits.mono hq fun t ht => ?_
    obtain ⟨-, hderef⟩ := canBeDereferenced_alloc ha htarget
    have hobjs := hkey q t ht htarget
    have hfound := (M.finds n q t).isSome k hobjs
    simp only [storePointer, hderef, Bool.not_true, Bool.false_eq_true, if_false, withObjects]
    refine each_establishes (fun k t => (State.rises_copyToCell k q.offset (.node value) t).le)
      (P := fun t => t.Admits (.cell k o, p)) State.Admits.mono hobjs fun u hu => ?_
    have hwritten := State.kept_copyToCell (PointsToSet.kept_admits p) q.offset (.node value)
      (hu.objects k hfound) (State.pts_admits_mono (ht.trans ((M.le_getMemoryObjects n q t).trans hu)) hvalue)
    obtain h | h := hoff
    · exact Or.inl (h ▸ hwritten)
    · exact Or.inr (h ▸ hwritten)
  obtain hq | hq := haddress
  · exact hpointer _ hq rfl (Or.inl rfl)
  · exact hpointer _ hq rfl (Or.inr rfl)

end MemoryModel

/-! ## Copying memory -/

section Copying

variable {G : PointerGraph N} (opts : PointerAnalysisOptions)

omit [DecidableEq N] [DecidableEq κ]

/-- An entry in the copied range is copied. -/
theorem isCopied_shift {q : Pointer N} {o len off : Offset} {i : Nat}
    (hq : q.offset = o ∨ q.offset = .unknown) (hoff : off = o.shift i ∨ off = .unknown)
    (hwrap : o.offset.toNat + i < 2 ^ 64) (hlen : len = .unknown ∨ i < len.offset.toNat) :
    isCopied q len off = true := by
  rw [isCopied]
  obtain hq | hq := hq
  · obtain rfl | rfl := hoff
    · -- both offsets are known, and the byte is in the range
      have hi : (BitVec.ofNat 64 i).toNat = i := by
        rw [BitVec.toNat_ofNat]
        exact Nat.mod_eq_of_lt (by omega)
      have hle : o ≤ o.shift i := by
        show o.offset ≤ o.offset + BitVec.ofNat 64 i
        rw [BitVec.le_def, BitVec.toNat_add, hi, Nat.mod_eq_of_lt hwrap]
        omega
      have hdiff : (o.shift i).offset - o.offset = BitVec.ofNat 64 i := by
        show o.offset + BitVec.ofNat 64 i - o.offset = _
        bv_omega
      rw [hq, hdiff]
      obtain rfl | hlen := hlen
      · simp [hle]
      · have hlt : BitVec.ofNat 64 i < len.offset := by
          rw [BitVec.lt_def, hi]
          exact hlen
        simp [hle, hlt]
    · simp
  · simp [hq]

/-- Where the entry is copied to: the same byte behind the destination, or the unknown offset. -/
theorem copiedTo_shift {q d : Pointer N} {o o' off : Offset} {i : Nat} (target : PSNode N)
    (hq : q.offset = o ∨ q.offset = .unknown) (hd : d.offset = o' ∨ d.offset = .unknown)
    (hoff : off = o.shift i ∨ off = .unknown) :
    copiedTo G opts q d target off = o'.shift i ∨ copiedTo G opts q d target off = .unknown := by
  rw [copiedTo]
  split
  · next hknown =>
      simp only [Bool.and_eq_true, Bool.not_eq_true', ← Bool.not_eq_true,
        Offset.isUnknown_iff] at hknown
      obtain ⟨⟨hoff', hq'⟩, hd'⟩ := hknown
      -- the arithmetic wraps around, and the difference is the same
      have hsum : (⟨off.offset - q.offset.offset + d.offset.offset⟩ : Offset) = o'.shift i := by
        rw [hoff.resolve_right hoff', hq.resolve_right hq', hd.resolve_right hd']
        show (⟨o.offset + BitVec.ofNat 64 i - o.offset + o'.offset⟩ : Offset) =
          ⟨o'.offset + BitVec.ofNat 64 i⟩
        congr 1
        bv_omega
      split
      · exact Or.inr rfl
      · simp only []
        split
        · exact Or.inr rfl
        · exact Or.inl hsum
  · exact Or.inr rfl

end Copying

namespace MemoryModel

variable {G : PointerGraph N} (M : MemoryModel G κ) (opts : PointerAnalysisOptions)

variable {A : PointsToSet N → Prop}

/-- The object that is read and the one that is written. -/
theorem holds_copyEntries (hA : PointsToSet.Kept A) {q d : Pointer N} {len o o' : Offset} {i : Nat}
    {k k' : κ} {s : State N κ}
    (hq : q.offset = o ∨ q.offset = .unknown) (hd : d.offset = o' ∨ d.offset = .unknown)
    (hwrap : o.offset.toNat + i < 2 ^ 64) (hlen : len = .unknown ∨ i < len.offset.toNat)
    (hk' : (s.objects k').isSome = true) (hcell : s.Holds A k (o.shift i)) :
    (copyEntries G opts q d len k' k s).1.Holds A k' (o'.shift i) := by
  have hentry : ∃ off, (off = o.shift i ∨ off = .unknown) ∧ A (s.cell k off) := by
    obtain h | h := hcell
    · exact ⟨o.shift i, Or.inl rfl, h⟩
    · exact ⟨.unknown, Or.inr rfl, h⟩
  obtain ⟨off, hoff, hthere⟩ := hentry
  -- the entry has its turn, and what it writes stays
  have hle : ∀ off t, State.Le t (copyEntry G opts q d len k' k off t).1 := fun off t => by
    rw [copyEntry]
    split
    · exact (State.rises_copyToCell k' _ (.cell k off) t).le
    · exact .refl t
  refine Step.scan_visits State.Le.refl (fun h h' => h.trans h') hle
    (P := fun t => t.Holds A k' (o'.shift i)) (State.Holds.mono hA) (fun h => h.offsets k) (a := off)
    ((Step.room_le_card none).trans Offset.card_le) (fun _ h => by cases h)
    (State.mem_offsets_of_kept hA hthere) fun t ht => ?_
  rw [copyEntry]
  rw [if_pos (isCopied_shift hq hoff hwrap hlen)]
  have hwritten := fun r => State.kept_copyToCell hA r (.cell k off) (ht.objects k' hk')
    (hA.mono (ht.read (.cell k off)) hthere)
  obtain h | h := copiedTo_shift (G := G) opts
    ((t.objects k').elim .nullptr MemoryObject.node) hq hd hoff
  · rw [h]
    exact Or.inl (hwritten _)
  · rw [h]
    exact Or.inr (hwritten _)

omit [DecidableEq κ] in
/-- Setting flags changes nothing that is admitted. -/
theorem meets_setZeroInitialized (x : PSNode N) (s : State N κ) :
    Step.Meets (Under (fun _ => True) State.Rises) (State.setZeroInitialized x) s :=
  fun _ => ⟨trivial, State.rises_setZeroInitialized x s⟩

include M in
theorem holds_processMemcpyObjects (hA : PointsToSet.Kept A) (n : N) {srcs dests : List κ}
    {q d : Pointer N} {len o o' : Offset} {i : Nat} {k k' : κ} {s : State N κ} (hk : k ∈ srcs)
    (hk' : k' ∈ dests) (hq : q.offset = o ∨ q.offset = .unknown)
    (hd : d.offset = o' ∨ d.offset = .unknown) (hwrap : o.offset.toNat + i < 2 ^ 64)
    (hlen : len = .unknown ∨ i < len.offset.toNat) (hsome : (s.objects k').isSome = true)
    (hcell : s.Holds A k (o.shift i)) :
    (processMemcpyObjects G opts srcs dests q d len s).1.Holds A k' (o'.shift i) := by
  have hrises := M.rises opts n
  have hzero : s.Le ((if s.isZeroInitialized q.target && copiesWhole G q d len then
      State.setZeroInitialized d.target else Step.skip) s).1 := by
    split
    · exact (State.rises_setZeroInitialized d.target s).le
    · exact .refl s
  have hentries : ∀ k k' t, State.Le t (copyEntries G opts q d len k' k t).1 := fun k k' t =>
    (Step.Meets.scan (Under.composes State.Rises.composes)
      (fun off t => hrises.copyEntry q d len k' k off t) _ _ t trivial).2.le
  have hnull : ∀ (c : Bool) k' (t : State N κ), t.Le
      ((if c then State.addToCell k' .unknown .nullPointer else Step.skip) t).1 := by
    intro c k' t
    split
    · exact (State.rises_modifyCell (State.setRises_add _) k' _ t).le
    · exact .refl t
  -- the turn of the destination, and in it the turn of the source
  refine each_establishes (f := fun dest => Step.andThen
    (if s.isZeroInitialized q.target && !copiesWhole G q d len then
      State.addToCell dest .unknown .nullPointer else Step.skip)
    (Step.each (fun so => copyEntries G opts q d len dest so) srcs))
    (fun k' t => (hnull _ k' t).trans (Step.le_each State.Le.refl (fun h h' => h.trans h')
      (fun k t => hentries k k' t) srcs _))
    (P := fun t => t.Holds A k' (o'.shift i)) (State.Holds.mono hA) hk' fun t ht => ?_
  have hst := hzero.trans (ht.trans (hnull
    (s.isZeroInitialized q.target && !copiesWhole G q d len) k' t))
  refine each_establishes (fun k t => hentries k k' t) (P := fun t => t.Holds A k' (o'.shift i))
    (State.Holds.mono hA) hk fun u hu => ?_
  exact holds_copyEntries opts hA hq hd hwrap hlen ((hst.trans hu).objects k' hsome)
    (State.Holds.mono hA (hst.trans hu) hcell)

/-- **A `memcpy` copies what memory admits.** -/
theorem admits_memcpy {n a b : N} {src dest : PSNode N} {len o o' : Offset} {i : Nat} {k k' : κ}
    {p : Pointer N} {s : State N κ} (hkind : G.kind n = .memcpy src dest len)
    (ha : G.kind a = .alloc) (hb : G.kind b = .alloc) (hsrc : (s.pts src).Covers ⟨.node a, o⟩)
    (hdest : (s.pts dest).Covers ⟨.node b, o'⟩) (hcell : s.Admits (.cell k (o.shift i), p))
    (hwrap : o.offset.toNat + i < 2 ^ 64) (hlen : len = .unknown ∨ i < len.offset.toNat)
    (hkey : ∀ q t, s.Le t → q.target = .node a → k ∈ (M.getMemoryObjects n q t).2)
    (hkey' : ∀ q t, s.Le t → q.target = .node b → k' ∈ (M.getMemoryObjects n q t).2) :
    (processNode G opts M.getMemoryObjects n s).1.Admits (.cell k' (o'.shift i), p) := by
  have heq : processNode G opts M.getMemoryObjects n s =
      Step.each (memcpySource G opts M.getMemoryObjects n dest len) (s.pts src).pointers s := by
    rw [processNode_memcpy hkind]
    rfl
  rw [heq]
  have hrises := M.rises opts n
  -- a source pointer that leads to the object
  have hsource : ∀ q : Pointer N, q ∈ (s.pts src).pointers → q.target = .node a →
      (q.offset = o ∨ q.offset = .unknown) →
      (Step.each (memcpySource G opts M.getMemoryObjects n dest len) (s.pts src).pointers s).1.Admits
        (.cell k' (o'.shift i), p) := by
    intro q hq hqt hqo
    refine each_establishes
      (fun q t => (hrises.copyWrites.memcpySource dest len trivial meets_setZeroInitialized t trivial).2.le)
      (P := fun t => t.Admits (.cell k' (o'.shift i), p)) State.Admits.mono hq fun t ht => ?_
    have hst := ht.trans (M.le_getMemoryObjects n q t)
    simp only [memcpySource, (canBeDereferenced_alloc ha hqt).2, Bool.not_true, Bool.false_eq_true,
      if_false, withObjects]
    -- and a destination pointer
    have htarget : ∀ d : Pointer N,
        d ∈ ((M.getMemoryObjects n q t).1.pts dest).pointers → d.target = .node b →
        (d.offset = o' ∨ d.offset = .unknown) →
        (Step.each (memcpyDest G opts M.getMemoryObjects n q len (M.getMemoryObjects n q t).2)
          ((M.getMemoryObjects n q t).1.pts dest).pointers (M.getMemoryObjects n q t).1).1.Admits
            (.cell k' (o'.shift i), p) := by
      intro d hd hdt hdo
      refine each_establishes
        (fun d t => (hrises.copyWrites.memcpyDest trivial len _ (meets_setZeroInitialized _) t trivial).2.le)
        (P := fun t => t.Admits (.cell k' (o'.shift i), p)) State.Admits.mono hd fun u hu => ?_
      have hsu := hst.trans hu
      simp only [memcpyDest, (canBeDereferenced_alloc hb hdt).2, Bool.not_true, Bool.false_eq_true,
        if_false, withObjects]
      have hfound := hkey' d u hsu hdt
      exact M.holds_processMemcpyObjects opts (PointsToSet.kept_admits p) n (hkey q t ht hqt) hfound
        hqo hdo hwrap hlen ((M.finds n d u).isSome k' hfound)
        (State.Admits.mono (hsu.trans (M.le_getMemoryObjects n d u)) hcell)
    obtain hd | hd := PointsToSet.Grows.covers (hst.read (.node dest)) hdest
    · exact htarget _ hd rfl (Or.inl rfl)
    · exact htarget _ hd rfl (Or.inr rfl)
  obtain hq | hq := hsrc
  · exact hsource _ hq rfl (Or.inl rfl)
  · exact hsource _ hq rfl (Or.inr rfl)

end MemoryModel

end Cape.PointerAnalysis
