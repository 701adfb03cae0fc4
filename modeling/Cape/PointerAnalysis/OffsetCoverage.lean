import Cape.Library.FinLiterals
import Cape.PointerAnalysis.ChangeTracking
import Cape.PointerAnalysis.Transfer

/-!
# The offsets of GEP and `memcpy`

What a GEP or a `memcpy` can produce on bytes, and what `processGep` and `processMemcpy` put into the
sets (`offsets_covered`): a pointer that is produced at a byte is covered there or at the unknown
offset, and a known offset that is new lies in its object and below the field sensitivity.

A `memcpy` reads its source from the offset of the pointer on, and a byte behind the last address is
not wrapped around to the start of the object. The null pointers of zeroed memory are no elements of
any set when the source is copied as a whole: the destination is marked instead
(`bytes_not_covered`).
-/

set_option autoImplicit false

namespace Cape.PointerAnalysis

open Cape.Library

universe u v

variable {N : Type u} {κ : Type v}

/-- The node that allocated an object. -/
def State.nodeOf (s : State N κ) (k : κ) : Option (PSNode N) := (s.objects k).map MemoryObject.node

section Statements

variable (G : PointerGraph N) (opts : PointerAnalysisOptions)

/-- A known offset that lies in an object of the node and below the field sensitivity. -/
def Fits (x : PSNode N) (off : Offset) : Prop :=
  (off = 0 ∨ off < ⟨G.getSize x⟩) ∧ off < opts.fieldSensitivity

/-- What a GEP node holds before and after it was processed. -/
structure GepCovers (off : Offset) (source before after : PointsToSet N) : Prop where
  /-- a pointer of the source moved by the offset, or by any number of bytes -/
  produced : ∀ p (d : BitVec 64), source.Covers p → (off = .unknown ∨ off = ⟨d⟩) →
    after.Covers ⟨p.target, ⟨p.offset.offset + d⟩⟩
  stored : ∀ p ∈ after, p ∈ before ∨ p.offset = .unknown ∨ Fits G opts p.target p.offset

variable [DecidableEq N] (objs : GetMemoryObjects N κ) (n : N)

/-- In a state, a pointer of an operand leads to a byte of an object. -/
structure LeadsTo (s : State N κ) (x : PSNode N) (q : Pointer N) (k : κ) (o : Offset) : Prop where
  mem : q ∈ s.pts x
  deref : canBeDereferenced G q = true
  found : k ∈ (objs n q s).2
  offset : q.offset = o ∨ q.offset = .unknown

/-- The state before a `memcpy` and the state after it. -/
structure MemcpyCovers (source destination : PSNode N) (len : Offset) (s t : State N κ) : Prop where
  /-- what is at a byte of the source, up to the last address, is at the byte of the destination -/
  produced : ∀ q d k k' o o' i p, LeadsTo G objs n s source q k o →
    LeadsTo G objs n s destination d k' o' → o.offset.toNat + i < 2 ^ 64 →
    (len = .unknown ∨ i < len.offset.toNat) →
    s.Holds (fun S => S.Covers p) k (o.shift i) → t.Holds (fun S => S.Covers p) k' (o'.shift i)
  /-- null from zeroed memory -/
  zeroed : ∀ q d k k' o o', LeadsTo G objs n s source q k o →
    LeadsTo G objs n s destination d k' o' → s.isZeroInitialized q.target = true →
    if copiesWhole G q d len then t.isZeroInitialized d.target = true
    else (t.cell k' .unknown).Covers .nullPointer
  stored : ∀ k off, off ∈ t.offsets k → off ∈ s.offsets k ∨ off = .unknown ∨
    ∃ x, t.nodeOf k = some x ∧ Fits G opts x off

/-- What processing a node does with offsets. -/
def OffsetsCovered (s t : State N κ) : Prop :=
  match G.kind n with
  | .gep source off => GepCovers G opts off (s.pts source) (s.pts (.node n)) (t.pts (.node n))
  | .memcpy source destination len => MemcpyCovers G opts objs n source destination len s t
  | _ => True

end Statements

/-! ## GEP -/

section Gep

variable {G : PointerGraph N} (opts : PointerAnalysisOptions)

theorem fits_gepPointer (p : Pointer N) (off : Offset) :
    (gepPointer G opts p off).offset = .unknown ∨
      Fits G opts (gepPointer G opts p off).target (gepPointer G opts p off).offset := by
  unfold gepPointer
  extract_lets newOffset
  split
  · next h => exact Or.inr h
  · exact Or.inl rfl

variable [DecidableEq N] [DecidableEq κ]

omit [DecidableEq κ] in
theorem covers_addToNode (n : N) (p : Pointer N) (s : State N κ) :
    ((State.addToNode n p s).1.pts (.node n)).Covers p := by
  rw [State.addToNode]
  rw [State.pts_modifyNode, if_pos rfl]
  exact PointsToSet.covers_add p _

omit [DecidableEq κ] in
/-- **`processGep` covers the moved pointers.** -/
theorem gepCovers (n : N) (source : PSNode N) (off : Offset) (s : State N κ) :
    GepCovers G opts off (s.pts source) (s.pts (.node n))
      ((processGep G opts n source off s).1.pts (.node n)) where
  produced := by
    intro p d hp hd
    -- one pointer of the source whose image covers the moved pointer
    have hadd : ∀ q : Pointer N, q ∈ (s.pts source).pointers →
        (gepPointer G opts q off = ⟨p.target, ⟨p.offset.offset + d⟩⟩ ∨
          gepPointer G opts q off = ⟨p.target, .unknown⟩) →
        ((processGep G opts n source off s).1.pts (.node n)).Covers
          ⟨p.target, ⟨p.offset.offset + d⟩⟩ := by
      intro q hq hshift
      refine each_establishes (f := fun p => State.addToNode n (gepPointer G opts p off))
        (P := fun t => (t.pts (.node n)).Covers ⟨p.target, ⟨p.offset.offset + d⟩⟩)
        (fun q t => le_addToNode n _ t)
        (fun hst h => PointsToSet.Grows.covers (hst.read (.node (.node n))) h) hq fun t _ => ?_
      have hcovers := covers_addToNode (κ := κ) n (gepPointer G opts q off) t
      obtain h | h := hshift
      · rwa [h] at hcovers ⊢
      · rw [h] at hcovers ⊢
        obtain hmem | hmem := hcovers
        · exact Or.inr hmem
        · exact Or.inr hmem
    obtain hp | hp := hp
    · apply hadd p hp
      obtain rfl | rfl := hd
      · exact Or.inr (gepPointer_unknown opts p (Or.inr rfl))
      · exact gepPointer_cases opts p ⟨d⟩
    · exact hadd p.widen hp (Or.inr (gepPointer_unknown opts p.widen (Or.inl rfl)))
  stored := by
    refine Step.each_keeps
      (P := fun t : State N κ => ∀ p ∈ t.pts (.node n), p ∈ s.pts (.node n) ∨ p.offset = .unknown ∨
        Fits G opts p.target p.offset) (fun q _ t ht => ?_) fun p hp => Or.inl hp
    intro p hp
    rw [State.addToNode] at hp
    rw [State.pts_modifyNode, if_pos rfl] at hp
    obtain hp | rfl := PointsToSet.mem_of_add hp
    · exact ht p hp
    · exact Or.inr (fits_gepPointer opts q off)

end Gep

/-! ## `memcpy` -/

section Memcpy

variable {G : PointerGraph N} (opts : PointerAnalysisOptions)

theorem State.nodeOf_modifyCell [DecidableEq κ] (k : κ) (off : Offset)
    (f : Step (PointsToSet N)) (s : State N κ) (k' : κ) :
    (State.modifyCell k off f s).1.nodeOf k' = s.nodeOf k' := by
  cases ho : s.objects k with
  | none => rw [State.modifyCell_of_none ho]
  | some o =>
      by_cases hk : k' = k
      · subst hk
        simp [State.nodeOf, State.modifyCell, ho, MemoryObject.modify, Step.within]
      · simp [State.nodeOf, State.modifyCell, ho, hk]

/-- A pointer that can be dereferenced leads to a node, which can be marked. -/
theorem zeroFlag_setZeroFlag_self [DecidableEq N] {z : N → Bool} {d : Pointer N}
    (h : canBeDereferenced G d = true) : zeroFlag (setZeroFlag z d.target) d.target = true := by
  rcases d with ⟨x | _, off⟩
  · simp [zeroFlag, setZeroFlag]
  · cases h
  · cases h
  · cases h

/-- Where `copiedTo` is a known offset, it lies in the object. -/
theorem fits_copiedTo (sptr dptr : Pointer N) (target : PSNode N) (off : Offset) :
    copiedTo G opts sptr dptr target off = .unknown ∨
      Fits G opts target (copiedTo G opts sptr dptr target off) := by
  rw [copiedTo]
  split
  · split
    · exact Or.inl rfl
    · simp only []
      split
      · exact Or.inl rfl
      · next h =>
          rw [not_or, not_le, not_le] at h
          exact Or.inr ⟨Or.inr h.1, h.2⟩
  · exact Or.inl rfl

/-- What a `memcpy` may do to the state. -/
structure Copied (G : PointerGraph N) (opts : PointerAnalysisOptions) (s t : State N κ) : Prop where
  le : s.Le t
  pts : ∀ x, t.pts x = s.pts x
  zeroInitialized : ∀ x, s.isZeroInitialized x = true → t.isZeroInitialized x = true
  node : ∀ k x, s.nodeOf k = some x → t.nodeOf k = some x
  stored : ∀ k off, off ∈ t.offsets k → off ∈ s.offsets k ∨ off = .unknown ∨
    ∃ x, t.nodeOf k = some x ∧ Fits G opts x off

namespace Copied

theorem refl (s : State N κ) : Copied G opts s s :=
  ⟨.refl s, fun _ => rfl, fun _ h => h, fun _ _ h => h, fun _ _ h => Or.inl h⟩

variable {opts}

theorem trans {s t u : State N κ} (h : Copied G opts s t) (h' : Copied G opts t u) :
    Copied G opts s u where
  le := h.le.trans h'.le
  pts := fun x => (h'.pts x).trans (h.pts x)
  zeroInitialized := fun x hx => h'.zeroInitialized x (h.zeroInitialized x hx)
  node := fun k x hx => h'.node k x (h.node k x hx)
  stored := by
    intro k off hoff
    rcases h'.stored k off hoff with hold | hnew
    · rcases h.stored k off hold with hs | hunknown | ⟨x, hx, hfits⟩
      · exact Or.inl hs
      · exact Or.inr (Or.inl hunknown)
      · exact Or.inr (Or.inr ⟨x, h'.node k x hx, hfits⟩)
    · exact Or.inr hnew

theorem composes : Step.Composes fun (s t : State N κ) (_ : Bool) => Copied G opts s t :=
  ⟨refl opts, fun h h' => h.trans h'⟩

/-- Getting objects. -/
theorem of_finds {s t : State N κ} {keys : List κ} (h : Finds s t keys) : Copied G opts s t where
  le := h.rises
  pts := h.pts
  zeroInitialized := by
    intro x hx
    rw [isZeroInitialized_eq] at hx ⊢
    rwa [h.zeroInitialized]
  node := by
    intro k x hx
    rcases h.objects k with heq | ⟨hnone, -⟩
    · rw [State.nodeOf, heq]
      exact hx
    · rw [State.nodeOf, hnone] at hx
      cases hx
  stored := fun k off hoff => Or.inl (h.offsets k ▸ hoff)

theorem setZeroInitialized [DecidableEq N] (x : PSNode N) (s : State N κ) :
    Copied G opts s (State.setZeroInitialized x s).1 where
  le := (State.rises_setZeroInitialized x s).le
  pts := fun y => by cases x <;> cases y <;> rfl
  zeroInitialized := by
    intro y hy
    rw [isZeroInitialized_eq] at hy ⊢
    rw [zeroInitialized_set]
    exact zeroFlag_setZeroFlag _ x y hy
  node := fun k y hy => by cases x <;> exact hy
  stored := fun k off hoff => Or.inl (by cases x <;> exact hoff)

variable [DecidableEq κ]

/-- A write to an offset that fits. -/
theorem modifyCell {f : Step (PointsToSet N)} (hf : State.SetRises f) {k : κ} {off : Offset}
    {s : State N κ} (hoff : ∀ x, s.nodeOf k = some x → off = .unknown ∨ Fits G opts x off) :
    Copied G opts s (State.modifyCell k off f s).1 where
  le := (State.rises_modifyCell hf k off s).le
  pts := State.pts_modifyCell k off f s
  zeroInitialized := by
    intro x hx
    rw [isZeroInitialized_eq] at hx ⊢
    rwa [State.zeroInitialized_modifyCell]
  node := fun k' x hx => (State.nodeOf_modifyCell k off f s k').trans hx
  stored := by
    intro k' off' hmem
    rcases State.mem_offsets_modifyCell hmem with hold | ⟨rfl, rfl⟩
    · exact Or.inl hold
    · -- an object that is written to exists
      cases hx : s.nodeOf k' with
      | none =>
          have hnone : s.objects k' = none := Option.map_eq_none_iff.1 hx
          rw [State.modifyCell_of_none hnone] at hmem
          exact Or.inl hmem
      | some x =>
          rcases hoff x hx with hunknown | hfits
          · exact Or.inr (Or.inl hunknown)
          · exact Or.inr (Or.inr ⟨x, (State.nodeOf_modifyCell k' off' f s k').trans hx, hfits⟩)

end Copied

variable [DecidableEq N] [DecidableEq κ] (M : MemoryModel G κ) (n : N)

theorem copied_copyEntry (sptr dptr : Pointer N) (len : Offset) (dest so : κ) (off : Offset)
    (s : State N κ) : Copied G opts s (copyEntry G opts sptr dptr len dest so off s).1 := by
  rw [copyEntry]
  split
  · rw [State.copyToCell]
    split
    · exact .refl opts s
    · apply Copied.modifyCell (State.setRises_union _)
      intro x hx
      obtain ⟨o, ho, rfl⟩ := Option.map_eq_some_iff.1 hx
      rw [ho]
      exact fits_copiedTo opts sptr dptr o.node off
  · exact .refl opts s

/-- **The writes of a `memcpy`.** -/
theorem copyWrites : CopyWrites G opts M.getMemoryObjects n (fun _ => True) (fun _ => True)
    (fun s t _ => Copied G opts s t) where
  composes := Copied.composes
  occurs := fun _ _ _ _ _ => trivial
  objects := fun p s _ _ => ⟨trivial, Copied.of_finds (M.finds n p s)⟩
  null := fun _ _ _ =>
    ⟨trivial, Copied.modifyCell (State.setRises_add .nullPointer) fun _ _ => Or.inl rfl⟩
  entry := fun sptr dptr len dest so off s _ =>
    ⟨trivial, copied_copyEntry opts sptr dptr len dest so off s⟩

omit [DecidableEq κ] in
theorem meets_copied (x : PSNode N) (s : State N κ) :
    Step.Meets (Under (fun _ => True) fun (s t : State N κ) _ => Copied G opts s t)
      (State.setZeroInitialized x) s :=
  fun _ => ⟨trivial, Copied.setZeroInitialized x s⟩

variable {n} {source destination : PSNode N} {len : Offset} {s : State N κ} {q d : Pointer N}

/-- What holds after the turn of one pair of pointers, and steps of the `memcpy` keep, holds at the
end. -/
theorem processMemcpy_visits (hkind : G.kind n = .memcpy source destination len)
    {P : State N κ → Prop} (hP : ∀ {s t}, Copied G opts s t → P s → P t)
    (hq : q ∈ s.pts source) (hqd : canBeDereferenced G q = true)
    (hd : d ∈ s.pts destination) (hdd : canBeDereferenced G d = true)
    (hpair : ∀ u, Copied G opts s u →
      (∀ k ∈ (M.getMemoryObjects n d s).2, (u.objects k).isSome = true) →
      P (processMemcpyObjects G opts (M.getMemoryObjects n q s).2 (M.getMemoryObjects n d s).2
        q d len u).1) :
    P (processMemcpy G opts M.getMemoryObjects n source destination len s).1 := by
  have hwrites := copyWrites opts M n
  -- the turn of the source, and in it the turn of the destination
  refine Step.each_visits (Copied.refl opts) (fun h h' => h.trans h')
    (fun q t => (hwrites.memcpySource destination len trivial (meets_copied opts) t trivial).2) hP hq
    fun t ht => ?_
  have hst := ht.trans (Copied.of_finds (M.finds n q t))
  simp only [memcpySource, hqd, Bool.not_true, Bool.false_eq_true, if_false, withObjects]
  refine Step.each_visits (Copied.refl opts) (fun h h' => h.trans h')
    (fun d t => (hwrites.memcpyDest trivial len _ (meets_copied opts _) t trivial).2) hP (a := d) ?_
    fun u hu => ?_
  · show d ∈ (M.getMemoryObjects n q t).1.pts destination
    rw [hst.pts]
    exact hd
  · simp only [memcpyDest, hdd, Bool.not_true, Bool.false_eq_true, if_false, withObjects]
    -- the objects of a `memcpy` are the same in all states
    have hfinds := M.finds n d u
    rw [M.ofMemcpy n _ _ _ hkind q t s]
    rw [M.ofMemcpy n _ _ _ hkind d u s] at hfinds ⊢
    exact hpair _ (hst.trans (hu.trans (Copied.of_finds hfinds))) hfinds.isSome

variable (len) in
/-- Null from a zeroed source: the destination is marked, or null is at its unknown offset. -/
theorem zeroed_processMemcpyObjects (srcs : List κ) {dests : List κ} {k' : κ} (hk' : k' ∈ dests)
    (hd : canBeDereferenced G d = true) (hsome : (s.objects k').isSome = true)
    (hzero : s.isZeroInitialized q.target = true) :
    if copiesWhole G q d len then
      (processMemcpyObjects G opts srcs dests q d len s).1.isZeroInitialized d.target = true
    else ((processMemcpyObjects G opts srcs dests q d len s).1.cell k' .unknown).Covers
      .nullPointer := by
  have hcomposes : Step.Composes fun (s t : State N κ) (_ : Bool) => Copied G opts s t :=
    Copied.composes
  have hentries : ∀ dest (t : State N κ), Copied G opts t
      (Step.each (fun so => copyEntries G opts q d len dest so) srcs t).1 := fun dest t =>
    Step.Meets.each hcomposes (fun so _ t => Step.Meets.scan hcomposes
      (fun off t => copied_copyEntry opts q d len dest so off t) _ _ t) t
  rw [processMemcpyObjects]
  by_cases hwhole : copiesWhole G q d len = true
  · rw [if_pos hwhole]
    simp only [hzero, hwhole, Bool.and_self, if_true, Bool.not_true, Bool.and_false,
      Bool.false_eq_true, if_false]
    -- the mark is set first
    have hmark : (State.setZeroInitialized d.target s).1.isZeroInitialized d.target = true := by
      rw [isZeroInitialized_eq, zeroInitialized_set]
      exact zeroFlag_setZeroFlag_self hd
    refine (Step.Meets.each hcomposes (fun dest _ t => ?_) _).zeroInitialized _ hmark
    exact hentries dest t
  · rw [if_neg hwhole]
    have hnot : copiesWhole G q d len = false := Bool.not_eq_true _ ▸ hwhole
    simp only [hzero, hnot, Bool.and_false, Bool.false_eq_true, if_false, Bool.not_false,
      Bool.and_true, if_true]
    have hnull : ∀ dest (t : State N κ), Copied G opts t
        (State.addToCell dest .unknown .nullPointer t).1 := fun dest t =>
      Copied.modifyCell (State.setRises_add .nullPointer) fun _ _ => Or.inl rfl
    refine Step.each_visits (Copied.refl opts) (fun h h' => h.trans h')
      (f := fun dest => (State.addToCell dest .unknown .nullPointer).andThen
        (Step.each (fun so => copyEntries G opts q d len dest so) srcs))
      (fun dest t => (hnull dest t).trans (hentries dest _))
      (P := fun t => (t.cell k' .unknown).Covers .nullPointer)
      (fun hst h => PointsToSet.Grows.covers (hst.le.read (.cell k' .unknown)) h) hk' fun t ht => ?_
    refine PointsToSet.Grows.covers ((hentries k' _).le.read (.cell k' .unknown)) ?_
    show ((State.addToCell k' .unknown .nullPointer t).1.cell k' .unknown).Covers .nullPointer
    rw [State.addToCell]
    rw [State.cell_modifyCell (ht.le.objects k' hsome), if_pos ⟨rfl, rfl⟩]
    exact PointsToSet.covers_add _ _

/-- **`processMemcpy` covers the bytes that it copies.** -/
theorem memcpyCovers (hkind : G.kind n = .memcpy source destination len) :
    MemcpyCovers G opts M.getMemoryObjects n source destination len s
      (processMemcpy G opts M.getMemoryObjects n source destination len s).1 where
  produced := by
    intro q d k k' o o' i p hq hd hwrap hlen hholds
    have hkept := PointsToSet.kept_covers p
    refine processMemcpy_visits opts M hkind (fun hst h => State.Holds.mono hkept hst.le h) hq.mem
      hq.deref hd.mem hd.deref fun u hu hsome => ?_
    exact M.holds_processMemcpyObjects opts hkept n hq.found hd.found hq.offset hd.offset hwrap hlen
      (hsome k' hd.found) (State.Holds.mono hkept hu.le hholds)
  zeroed := by
    intro q d k k' o o' hq hd hzero
    have hvisits := fun {P : State N κ → Prop} hP hpair =>
      processMemcpy_visits opts M hkind (P := P) hP hq.mem hq.deref hd.mem hd.deref hpair
    by_cases hwhole : copiesWhole G q d len = true
    · rw [if_pos hwhole]
      refine hvisits (fun hst h => hst.zeroInitialized _ h) fun u hu hsome => ?_
      have hzeroed := zeroed_processMemcpyObjects opts len (M.getMemoryObjects n q s).2 hd.found
        hd.deref (hsome k' hd.found) (hu.zeroInitialized _ hzero)
      rwa [if_pos hwhole] at hzeroed
    · rw [if_neg hwhole]
      refine hvisits (fun hst h => PointsToSet.Grows.covers (hst.le.read (.cell k' .unknown)) h)
        fun u hu hsome => ?_
      have hzeroed := zeroed_processMemcpyObjects opts len (M.getMemoryObjects n q s).2 hd.found
        hd.deref (hsome k' hd.found) (hu.zeroInitialized _ hzero)
      rwa [if_neg hwhole] at hzeroed
  stored := by
    have hmeets := (copyWrites opts M n).processMemcpy source destination len (meets_copied opts) s
    exact (hmeets trivial).2.stored

end Memcpy

/-- **The offsets of GEP and `memcpy` are covered.** -/
theorem offsets_covered [DecidableEq N] [DecidableEq κ] {G : PointerGraph N} (M : MemoryModel G κ)
    (opts : PointerAnalysisOptions) (n : N) (s : State N κ) :
    OffsetsCovered G opts M.getMemoryObjects n s
      (processNode G opts M.getMemoryObjects n s).1 := by
  rw [OffsetsCovered]
  split
  · next hkind =>
      rw [processNode_gep hkind]
      exact gepCovers opts n _ _ s
  · next hkind =>
      rw [processNode_memcpy hkind]
      exact memcpyCovers opts M hkind
  · trivial

/-! ## Bytes that are not covered -/

/-- What a copy of bytes can put at a byte of an object, with addresses modulo 2^64: what is in memory,
null from zeroed memory without an entry, and whatever an unknown source leads to. -/
inductive Produces [DecidableEq N] (G : PointerGraph N) (objs : GetMemoryObjects N κ) (n : N)
    (source destination : PSNode N) (len : Offset) (s : State N κ) (k' : κ) :
    Offset → Pointer N → Prop
  | copied {q d : Pointer N} {k : κ} {o o' : Offset} {i : Nat} {p : Pointer N} :
      LeadsTo G objs n s source q k o → LeadsTo G objs n s destination d k' o' →
      (len = .unknown ∨ i < len.offset.toNat) → s.Holds (fun S => S.Covers p) k (o.shift i) →
      Produces G objs n source destination len s k' (o'.shift i) p
  | zeroed {q d : Pointer N} {k : κ} {o o' : Offset} {i : Nat} :
      LeadsTo G objs n s source q k o → LeadsTo G objs n s destination d k' o' →
      (len = .unknown ∨ i < len.offset.toNat) → s.isZeroInitialized q.target = true →
      o.shift i ∉ s.offsets k → Produces G objs n source destination len s k' (o'.shift i) .nullPointer
  | anywhere {d : Pointer N} {k : κ} {o o' : Offset} {i : Nat} {p : Pointer N} :
      .unknownPointer ∈ s.pts source → LeadsTo G objs n s destination d k' o' →
      (len = .unknown ∨ i < len.offset.toNat) → s.Holds (fun S => S.Covers p) k (o.shift i) →
      Produces G objs n source destination len s k' (o'.shift i) p

instance [DecidableEq N] (p : Pointer N) : DecidablePred fun S : PointsToSet N => S.Covers p :=
  fun S => inferInstanceAs (Decidable (p ∈ S ∨ p.widen ∈ S))

instance (A : PointsToSet N → Prop) [DecidablePred A] (k : κ) (off : Offset) (s : State N κ) :
    Decidable (s.Holds A k off) :=
  inferInstanceAs (Decidable (A (s.cell k off) ∨ A (s.cell k .unknown)))

/-- `*a = c` for an object `a` of unknown size, then three copies of 8 bytes: from 4 bytes before `a`,
from unknown memory and from the zeroed `c` to the `d` of its size. -/
def threeCopies : PointerGraph (Fin 9) where
  kind := ![.alloc, .alloc, .alloc, .alloc, .store (.node 2) (.node 0),
    .gep (.node 0) ⟨BitVec.ofInt 64 (-4)⟩, .memcpy (.node 5) (.node 1) 8,
    .memcpy .unknownMemory (.node 1) 8, .memcpy (.node 2) (.node 3) 8]
  successors := ![[1], [2], [3], [4], [5], [6], [7], [8], []]
  predecessors := ![[], [0], [1], [2], [3], [4], [5], [6], [7]]
  callees := fun _ => []
  returnSites := fun _ => []
  size := ![BitVec.allOnes 64, 16, 8, 8, 0, 0, 0, 0, 0]
  isHeap := fun _ => false
  isGlobal := fun _ => false
  zeroInitialized := ![false, false, true, false, false, false, false, false, false]
  subgraphs := [0]
  parent := fun _ => some 0
  globals := []
  root := 0
  mem_predecessors := by decide
  nodup_globals := List.nodup_nil

/-- The state before the copies. -/
def beforeCopies : State (Fin 9) (PSNode (Fin 9)) :=
  (FI.step threeCopies {} 5 (FI.step threeCopies {} 4 (.initial threeCopies)).1).1

/-- Bytes of all three copies are not covered. -/
theorem bytes_not_covered :
    (∃ byte p, Produces threeCopies (FI.getMemoryObjects threeCopies) 6 (.node 5) (.node 1) 8
        beforeCopies (.node 1) byte p ∧
      ¬ (FI.step threeCopies {} 6 beforeCopies).1.Holds (fun S => S.Covers p) (.node 1) byte) ∧
    (∃ byte p, Produces threeCopies (FI.getMemoryObjects threeCopies) 7 .unknownMemory (.node 1) 8
        beforeCopies (.node 1) byte p ∧
      ¬ (FI.step threeCopies {} 7 beforeCopies).1.Holds (fun S => S.Covers p) (.node 1) byte) ∧
    ∃ byte p, Produces threeCopies (FI.getMemoryObjects threeCopies) 8 (.node 2) (.node 3) 8
        beforeCopies (.node 3) byte p ∧
      ¬ (FI.step threeCopies {} 8 beforeCopies).1.Holds (fun S => S.Covers p) (.node 3) byte := by
  refine ⟨⟨Offset.shift 0 4, ⟨.node 2, 0⟩, ?_, by decide⟩,
    ⟨Offset.shift 0 0, ⟨.node 2, 0⟩, ?_, by decide⟩, ⟨Offset.shift 0 0, .nullPointer, ?_, by decide⟩⟩
  · -- the range starts before the object
    exact .copied (q := ⟨.node 0, ⟨BitVec.ofInt 64 (-4)⟩⟩) (d := ⟨.node 1, 0⟩) (k := .node 0)
      ⟨by decide, by decide, by decide, Or.inl rfl⟩ ⟨by decide, by decide, by decide, Or.inl rfl⟩
      (by decide) (by decide)
  · -- the source is unknown
    exact .anywhere (d := ⟨.node 1, 0⟩) (k := .node 0) (o := 0) (by decide)
      ⟨by decide, by decide, by decide, Or.inl rfl⟩ (by decide) (by decide)
  · -- only the destination is marked
    exact .zeroed (q := ⟨.node 2, 0⟩) (d := ⟨.node 3, 0⟩) (k := .node 2)
      ⟨by decide, by decide, by decide, Or.inl rfl⟩ ⟨by decide, by decide, by decide, Or.inl rfl⟩
      (by decide) (by decide) (by decide)

end Cape.PointerAnalysis
