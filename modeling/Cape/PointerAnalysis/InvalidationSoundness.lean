import Cape.PointerAnalysis.Invalidation

/-!
# What an invalidating node keeps and flags

A FREE, INVALIDATE_OBJECT or INVALIDATE_LOCALS node is right when every place from which a predecessor
points into an object that the node may destroy holds INVALIDATED at the node, and every pointer of a
predecessor that stays valid is still at its place.

`FSInv.invalidation_right_iff` says when a node is right: locals on a loop are not flagged, the unknown
pointer in the set of the operand flags only entries that are there already, a function whose only
pointer is freed loses its pointers, and the object from which the freed pointer was loaded loses
everything.
-/

set_option autoImplicit false

namespace Cape.PointerAnalysis

open Cape.Library

universe u

variable {N : Type u} [DecidableEq N]

namespace FSInv

open FS

/-- The set has an INVALIDATED pointer. -/
def HoldsInvalidated (S : PointsToSet N) : Prop := ∃ p ∈ S, p.target = .invalidated

section Specification

variable [Fintype N] (G : PointerGraph N)

/-- The node may free or destroy the object. -/
def MayDestroy (s : State N (Key N)) (n a : N) : Prop :=
  match G.kind n with
  | .free operand | .invalidateObject operand =>
      (s.pts operand).pointsToTarget (.node a) = true ∨
        (s.pts operand).pointsToTarget .unknownMemory = true
  | .invalidateLocals _ => isLocal G s.parent a n = true
  | _ => False

/-- The one instance of the object is what the node frees or destroys. -/
def SurelyDestroys (s : State N (Key N)) (n a : N) : Prop :=
  match G.kind n with
  | .free operand | .invalidateObject operand =>
      invStrongUpdate G s.parent (s.pts operand) = true ∧
        (s.pts operand).pointsToTarget (.node a) = true
  | .invalidateLocals _ =>
      isLocal G s.parent a n = true ∧ knownInstance G s.parent (.node a) = true
  | _ => False

/-- A pointer into an object that the node may free or destroy. -/
def IntoDestroyed (s : State N (Key N)) (n : N) (p : Pointer N) : Prop :=
  ∃ a, p.target = .node a ∧ G.kind a = .alloc ∧ MayDestroy G s n a

/-- A pointer that is null, unknown, a function or into an object that is not surely destroyed. -/
def StaysValid (s : State N (Key N)) (n : N) (p : Pointer N) : Prop :=
  p.target = .nullptr ∨ p.target = .unknownMemory ∨
    ∃ a, p.target = .node a ∧
      (G.kind a = .function ∨ (G.kind a = .alloc ∧ ¬ SurelyDestroys G s n a))

/-- **Invalidation is right** from state `s` to state `t`, for the places of the objects. -/
def Right (n : N) (s t : MapState N) : Prop :=
  ∀ mm, s.data n = some mm → ∀ pm ∈ predecessorMaps G s n, ∀ y off,
    ∀ q ∈ s.state.cell (pm, .node y) off,
      (IntoDestroyed G s.state n q → HoldsInvalidated (t.state.cell (mm, .node y) off)) ∧
      (StaysValid G s.state n q → (t.state.cell (mm, .node y) off).Covers q)

end Specification

/-! ## Sets -/

omit [DecidableEq N] in
theorem HoldsInvalidated.grows {S T : PointsToSet N} (h : PointsToSet.Grows S T)
    (hS : HoldsInvalidated S) : HoldsInvalidated T := by
  obtain ⟨p, hp, htarget⟩ := hS
  obtain hT | ⟨hT, -⟩ := h p hp
  · exact ⟨p, hT, htarget⟩
  · exact ⟨p.widen, hT, htarget⟩

omit [DecidableEq N] in
theorem holdsInvalidated_of_covers {S : PointsToSet N} (h : S.Covers invalidated) :
    HoldsInvalidated S := by
  obtain h | h := h
  · exact ⟨_, h, rfl⟩
  · exact ⟨_, h, rfl⟩

theorem holdsInvalidated_add (S : PointsToSet N) :
    HoldsInvalidated (PointsToSet.add invalidated S).1 :=
  holdsInvalidated_of_covers (PointsToSet.covers_add invalidated S)

theorem pointsToTarget_iff {S : PointsToSet N} {x : PSNode N} :
    S.pointsToTarget x = true ↔ ∃ p ∈ S, p.target = x := by
  rw [PointsToSet.pointsToTarget, List.any_eq_true]
  simp only [decide_eq_true_eq]
  rfl

theorem grows_eachAdd (l : List (Pointer N)) (S : PointsToSet N) :
    PointsToSet.Grows S (Step.each PointsToSet.add l S).1 := by
  induction l generalizing S with
  | nil => exact .refl S
  | cons p l ih => exact (PointsToSet.grows_add p S).trans (ih _)

theorem covers_eachAdd {l : List (Pointer N)} {p : Pointer N} (hp : p ∈ l) (S : PointsToSet N) :
    (Step.each PointsToSet.add l S).1.Covers p := by
  induction l generalizing S with
  | nil => cases hp
  | cons q l ih =>
      obtain rfl | hp := List.mem_cons.1 hp
      · exact (grows_eachAdd l _).covers (PointsToSet.covers_add p S)
      · exact ih hp _

theorem mem_of_eachAdd {l : List (Pointer N)} {p : Pointer N} {S : PointsToSet N}
    (hp : p ∈ (Step.each PointsToSet.add l S).1) : p ∈ S ∨ p ∈ l := by
  induction l generalizing S with
  | nil => exact Or.inl hp
  | cons q l ih =>
      obtain h | h := ih hp
      · obtain h | rfl := PointsToSet.mem_of_add h
        · exact Or.inl h
        · exact Or.inr List.mem_cons_self
      · exact Or.inr (List.mem_cons_of_mem q h)

/-- What is in a set that was replaced. -/
theorem mem_of_replaceWithInv {keep : Pointer N → Bool} {S : PointsToSet N} {p : Pointer N}
    (hp : p ∈ replaceWithInv keep S) : p = invalidated ∨ (p ∈ S ∧ keep p = true) := by
  obtain h | h := PointsToSet.mem_of_add hp
  · obtain h | h := mem_of_eachAdd h
    · exact absurd h (PointsToSet.mem_empty p)
    · exact Or.inr (List.mem_filter.1 h)
  · exact Or.inl h

theorem holdsInvalidated_replaceWithInv (keep : Pointer N → Bool) (S : PointsToSet N) :
    HoldsInvalidated (replaceWithInv keep S) := holdsInvalidated_add _

/-- What is kept, when that is decided by the target. -/
theorem covers_replaceWithInv {keep : Pointer N → Bool} {S : PointsToSet N} {p : Pointer N}
    (hp : S.Covers p) (hkeep : keep p = true) (hwide : keep p.widen = keep p) :
    (replaceWithInv keep S).Covers p := by
  apply (PointsToSet.grows_add _ _).covers
  obtain h | h := hp
  · exact covers_eachAdd (List.mem_filter.2 ⟨h, hkeep⟩) _
  · have hcovers := covers_eachAdd (List.mem_filter.2 ⟨h, hwide.trans hkeep⟩) PointsToSet.empty
    obtain hmem | hmem := hcovers
    · exact Or.inr hmem
    · exact Or.inr hmem

/-! ## Entries -/

/-- What an entry holds; nothing when it is not there. -/
def content (e : Option (PointsToSet N)) : PointsToSet N := e.getD .empty

theorem grows_addAll (l : List (Pointer N)) (e : Option (PointsToSet N)) :
    PointsToSet.Grows (content e) (content (addAll l e)) := by
  induction l generalizing e with
  | nil => exact .refl _
  | cons p l ih =>
      have h := ih (some (PointsToSet.add p (content e)).1)
      exact (PointsToSet.grows_add p (content e)).trans h

theorem covers_addAll {l : List (Pointer N)} {p : Pointer N} (hp : p ∈ l)
    (e : Option (PointsToSet N)) : (content (addAll l e)).Covers p := by
  induction l generalizing e with
  | nil => cases hp
  | cons q l ih =>
      obtain rfl | hp := List.mem_cons.1 hp
      · have h := grows_addAll l (some (PointsToSet.add p (content e)).1)
        exact h.covers (PointsToSet.covers_add p (content e))
      · exact ih hp _

theorem mem_of_addAll {l : List (Pointer N)} {p : Pointer N} {e : Option (PointsToSet N)}
    (hp : p ∈ content (addAll l e)) : p ∈ content e ∨ p ∈ l := by
  induction l generalizing e with
  | nil => exact Or.inl hp
  | cons q l ih =>
      obtain h | h := ih hp
      · obtain h | rfl := PointsToSet.mem_of_add h
        · exact Or.inl h
        · exact Or.inr List.mem_cons_self
      · exact Or.inr (List.mem_cons_of_mem q h)

theorem isSome_addAll {l : List (Pointer N)} {e : Option (PointsToSet N)} :
    (addAll l e).isSome = true ↔ e.isSome = true ∨ l ≠ [] := by
  induction l generalizing e with
  | nil => simp [addAll]
  | cons p l ih =>
      have h := ih (e := some (PointsToSet.add p (e.getD .empty)).1)
      simp only [Option.isSome_some, true_or, iff_true] at h
      simp only [ne_eq, reduceCtorEq, not_false_eq_true, or_true, iff_true]
      exact h

/-! ## Turns -/

section Turns

variable {change : Step (PointsToSet N)} {image : Pointer N → List (Pointer N)}
variable {s : State N (Key N)} {mm : N} {x : PSNode N} {off : Offset}

/-- The map has the object, or it is the map of the node. -/
def TakesPart (s : State N (Key N)) (mm : N) (x : PSNode N) (pm : N) : Prop :=
  pm = mm ∨ (s.objects (pm, x)).isSome = true

omit [DecidableEq N] in
theorem takesPart_of_mem {pm : N} {q : Pointer N} (hq : q ∈ s.cell (pm, x) off) :
    TakesPart s mm x pm := by
  right
  cases ho : s.objects (pm, x) with
  | none =>
      rw [State.cell, ho] at hq
      exact absurd hq (PointsToSet.mem_empty q)
  | some o => rfl

theorem turn_of_not {pm : N} (h : ¬ TakesPart s mm x pm) (e : Option (PointsToSet N)) :
    turn change image s mm x off e pm = e := if_neg h

/-- The entry as it is merged into, in the turn of a map. -/
def changed (change : Step (PointsToSet N)) (e : Option (PointsToSet N)) :
    Option (PointsToSet N) := e.map fun S => (change S).1

/-- What a map has to merge. -/
def source (change : Step (PointsToSet N)) (s : State N (Key N)) (mm : N) (x : PSNode N)
    (off : Offset) (e : Option (PointsToSet N)) (pm : N) : PointsToSet N :=
  if pm = mm then content (changed change e) else s.cell (pm, x) off

theorem turn_of {pm : N} (h : TakesPart s mm x pm) (e : Option (PointsToSet N)) :
    turn change image s mm x off e pm =
      addAll ((source change s mm x off e pm).pointers.flatMap image) (changed change e) := if_pos h

/-- What every change keeps, and more pointers do not take away, the turns keep. -/
theorem keeps_turn {P : PointsToSet N → Prop} (hgrows : ∀ {S T}, PointsToSet.Grows S T → P S → P T)
    (hchange : ∀ S, P S → P (change S).1) {e : Option (PointsToSet N)} (he : P (content e))
    (pm : N) : P (content (turn change image s mm x off e pm)) := by
  by_cases h : TakesPart s mm x pm
  · rw [turn_of h]
    apply hgrows (grows_addAll _ _)
    cases e with
    | none => exact he
    | some S => exact hchange S he
  · rw [turn_of_not h]
    exact he

/-- A pointer that a map has is merged. -/
theorem covers_turn (change : Step (PointsToSet N)) (image : Pointer N → List (Pointer N)) {pm : N}
    (hne : pm ≠ mm) {p q : Pointer N} (hp : p ∈ s.cell (pm, x) off)
    (hq : q ∈ image p) (e : Option (PointsToSet N)) :
    (content (turn change image s mm x off e pm)).Covers q := by
  rw [turn_of (takesPart_of_mem hp)]
  apply covers_addAll
  rw [source, if_neg hne]
  exact List.mem_flatMap.2 ⟨p, hp, hq⟩

/-- What is in an entry after a turn. -/
theorem mem_of_turn {pm : N} (h : TakesPart s mm x pm) {e : Option (PointsToSet N)} {q : Pointer N}
    (hq : q ∈ content (turn change image s mm x off e pm)) :
    q ∈ content (changed change e) ∨
      ∃ p ∈ source change s mm x off e pm, q ∈ image p := by
  rw [turn_of h] at hq
  exact (mem_of_addAll hq).imp_right List.mem_flatMap.1

/-- What one turn establishes, and all turns keep, holds in the end. -/
theorem foldl_establishes {α β : Type*} {f : β → α → β} {P Q : β → Prop} {l : List α}
    {a : α} (ha : a ∈ l) (hbefore : ∀ e, ∀ b ∈ l, P e → P (f e b))
    (hestablish : ∀ e, P e → Q (f e a))
    (hafter : ∀ e, ∀ b ∈ l, Q e → Q (f e b)) {e : β} (he : P e) :
    Q (l.foldl f e) := by
  obtain ⟨l₁, l₂, rfl⟩ := List.append_of_mem ha
  rw [List.foldl_append, List.foldl_cons]
  have hfirst := List.foldlRecOn l₁ f he fun e he b hb =>
    hbefore e b (List.mem_append_left _ hb) he
  exact List.foldlRecOn l₂ f (hestablish _ hfirst) fun e he b hb =>
    hafter e b (List.mem_append_right _ (List.mem_cons_of_mem a hb)) he

end Turns

/-! ## Locals -/

section Locals

variable [Fintype N] (G : PointerGraph N) (parent : N → Option Nat) (n : N)

/-- No pointer of the set is removed. -/
def NoLocals (S : PointsToSet N) : Prop := ∀ p ∈ S, isRemovable G parent n p = false

variable {G parent n}

theorem noLocals_iff {S : PointsToSet N} :
    NoLocals G parent n S ↔ containsRemovableLocals G parent n S = false := by
  rw [containsRemovableLocals, List.any_eq_false]
  exact ⟨fun h p hp => by simp [h p hp], fun h p hp => by simpa using h p hp⟩

theorem isRemovable_invalidated : isRemovable G parent n invalidated = false := rfl

/-- A removable pointer is one to an allocation. -/
theorem alloc_of_isRemovable {p : Pointer N} (h : isRemovable G parent n p = true) :
    ∃ a, p.target = .node a ∧ G.kind a = .alloc ∧ isLocal G parent a n = true ∧
      knownInstance G parent (.node a) = true := by
  unfold isRemovable at h
  split at h
  · next a ha =>
      simp only [Bool.and_eq_true, decide_eq_true_eq] at h
      exact ⟨a, ha, h.1.1, h.1.2, h.2⟩
  · cases h

theorem removeLocals_of_noLocals {S : PointsToSet N} (h : NoLocals G parent n S) :
    (removeLocals G parent n S).1 = S := by
  rw [removeLocals, noLocals_iff.1 h]
  rfl

theorem mem_of_removeLocals {S : PointsToSet N} {p : Pointer N}
    (hp : p ∈ (removeLocals G parent n S).1) :
    p = invalidated ∨ (p ∈ S ∧ isRemovable G parent n p = false) := by
  cases hcontains : containsRemovableLocals G parent n S with
  | false =>
      have hno := noLocals_iff.2 hcontains
      rw [removeLocals_of_noLocals hno] at hp
      exact Or.inr ⟨hp, hno p hp⟩
  | true =>
      rw [removeLocals, hcontains] at hp
      refine (mem_of_replaceWithInv hp).imp_right fun ⟨hmem, hkeep⟩ => ⟨hmem, ?_⟩
      simpa using (Bool.and_eq_true_iff.1 hkeep).2

theorem noLocals_removeLocals (S : PointsToSet N) :
    NoLocals G parent n (removeLocals G parent n S).1 := by
  intro p hp
  obtain rfl | ⟨-, h⟩ := mem_of_removeLocals hp
  · exact isRemovable_invalidated
  · exact h

theorem holdsInvalidated_removeLocals {S : PointsToSet N}
    (h : HoldsInvalidated S ∨ ¬ NoLocals G parent n S) :
    HoldsInvalidated (removeLocals G parent n S).1 := by
  cases hcontains : containsRemovableLocals G parent n S with
  | false =>
      have hno := noLocals_iff.2 hcontains
      rw [removeLocals_of_noLocals hno]
      exact h.resolve_right fun hnot => hnot hno
  | true =>
      rw [removeLocals, hcontains]
      exact holdsInvalidated_replaceWithInv _ S

/-- Pointers to allocations that are not removable are kept. -/
theorem covers_removeLocals {S : PointsToSet N} {p : Pointer N} (hp : S.Covers p) {a : N}
    (ha : p.target = .node a) (halloc : G.kind a = .alloc)
    (hnot : isRemovable G parent n p = false) : (removeLocals G parent n S).1.Covers p := by
  cases hcontains : containsRemovableLocals G parent n S with
  | false =>
      rw [removeLocals_of_noLocals (noLocals_iff.2 hcontains)]
      exact hp
  | true =>
      rw [removeLocals, hcontains]
      exact covers_replaceWithInv hp (by simp [ha, halloc, hnot]) rfl

/-- Where a pointer is removed, only pointers to allocations are kept. -/
theorem target_of_removeLocals {S : PointsToSet N} (h : ¬ NoLocals G parent n S) {p : Pointer N}
    (hp : p ∈ (removeLocals G parent n S).1) :
    p.target = .invalidated ∨ ∃ a, p.target = .node a ∧ G.kind a = .alloc := by
  have hcontains : containsRemovableLocals G parent n S = true := by
    rw [noLocals_iff] at h
    simpa using h
  rw [removeLocals, hcontains] at hp
  obtain rfl | ⟨-, hkeep⟩ := mem_of_replaceWithInv hp
  · exact Or.inl rfl
  · have halloc := (Bool.and_eq_true_iff.1 hkeep).1
    split at halloc
    · next a ha => exact Or.inr ⟨a, ha, of_decide_eq_true halloc⟩
    · cases halloc

theorem mem_withoutLocal {p q : Pointer N} (h : q ∈ withoutLocal G parent n p) :
    (q = invalidated ∧ isRemovable G parent n p = true) ∨
      (q = p ∧ isRemovable G parent n p = false) := by
  unfold withoutLocal at h
  split at h
  · next hrem => exact Or.inl ⟨List.mem_singleton.1 h, hrem⟩
  · next hrem => exact Or.inr ⟨List.mem_singleton.1 h, by simpa using hrem⟩

/-! ### The turns of an INVALIDATE_LOCALS node -/

variable {s : State N (Key N)} {mm : N} {x : PSNode N} {off : Offset}

theorem content_changed_removeLocals (e : Option (PointsToSet N)) :
    content (changed (removeLocals G parent n) e) = (removeLocals G parent n (content e)).1 := by
  cases e with
  | none => exact (removeLocals_of_noLocals fun p hp => absurd hp (PointsToSet.mem_empty p)).symm
  | some S => rfl

theorem noLocals_turn {e : Option (PointsToSet N)} {pm : N}
    (h : TakesPart s mm x pm ∨ NoLocals G parent n (content e)) :
    NoLocals G parent n (content
      (turn (removeLocals G parent n) (withoutLocal G parent n) s mm x off e pm)) := by
  by_cases hpart : TakesPart s mm x pm
  · intro p hp
    obtain hp | ⟨q, -, hp⟩ := mem_of_turn hpart hp
    · rw [content_changed_removeLocals] at hp
      exact noLocals_removeLocals _ p hp
    · obtain ⟨rfl, -⟩ | ⟨rfl, hnot⟩ := mem_withoutLocal hp
      · exact isRemovable_invalidated
      · exact hnot
  · rw [turn_of_not hpart]
    exact h.resolve_left hpart

theorem covers_turn_of_noLocals {e : Option (PointsToSet N)} {p : Pointer N}
    (hno : NoLocals G parent n (content e)) (hp : (content e).Covers p) (pm : N) :
    (content (turn (removeLocals G parent n) (withoutLocal G parent n) s mm x off e pm)).Covers p := by
  by_cases hpart : TakesPart s mm x pm
  · rw [turn_of hpart]
    apply (grows_addAll _ _).covers
    rw [content_changed_removeLocals, removeLocals_of_noLocals hno]
    exact hp
  · rw [turn_of_not hpart]
    exact hp

theorem holdsInvalidated_turn_locals {e : Option (PointsToSet N)}
    (h : HoldsInvalidated (content e)) (pm : N) : HoldsInvalidated (content
      (turn (removeLocals G parent n) (withoutLocal G parent n) s mm x off e pm)) :=
  keeps_turn (fun hgrows => HoldsInvalidated.grows hgrows)
    (fun _ hS => holdsInvalidated_removeLocals (Or.inl hS)) h pm

/-- A removable pointer, or an INVALIDATED one, in the map or in that of a predecessor flags the
entry. -/
theorem locals_flagged {l : List N} {pm : N} (hpm : pm ∈ l) (hpart : TakesPart s mm x pm) {m : N}
    (hm : m = mm ∨ m ∈ l) {r : Pointer N} (hr : r ∈ s.cell (m, x) off)
    (hmark : r.target = .invalidated ∨ isRemovable G parent n r = true) :
    HoldsInvalidated (content
      (l.foldl (turn (removeLocals G parent n) (withoutLocal G parent n) s mm x off)
        (s.entry (mm, x) off))) := by
  by_cases hmm : m = mm
  · -- the entry of the node has it: the first map that takes part flags it
    subst hmm
    refine foldl_establishes (Q := fun e => HoldsInvalidated (content e)) (P := fun e => HoldsInvalidated (content e) ∨
      ¬ NoLocals G parent n (content e)) hpm (fun e b _ he => ?_) (fun e he => ?_)
      (fun e b _ he => holdsInvalidated_turn_locals he b) ?_
    · by_cases hb : TakesPart s m x b
      · left
        rw [turn_of hb]
        apply HoldsInvalidated.grows (grows_addAll _ _)
        rw [content_changed_removeLocals]
        exact holdsInvalidated_removeLocals he
      · rw [turn_of_not hb]
        exact he
    · rw [turn_of hpart]
      apply HoldsInvalidated.grows (grows_addAll _ _)
      rw [content_changed_removeLocals]
      exact holdsInvalidated_removeLocals he
    · rw [State.cell_eq_entry] at hr
      refine hmark.imp (fun h => ⟨r, hr, h⟩) fun h hno => ?_
      rw [hno r hr] at h
      cases h
  · refine foldl_establishes (Q := fun e => HoldsInvalidated (content e)) (P := fun _ => True)
      (hm.resolve_left hmm)
      (fun _ _ _ _ => trivial) (fun e _ => ?_)
      (fun e b _ he => holdsInvalidated_turn_locals he b) trivial
    cases hrem : isRemovable G parent n r with
    | true =>
        exact holdsInvalidated_of_covers
          (covers_turn _ _ hmm hr (by simp [withoutLocal, hrem]) e)
    | false =>
        have hinv : r.target = .invalidated := hmark.resolve_right (by simp [hrem])
        obtain h | h := covers_turn (removeLocals G parent n) (withoutLocal G parent n) hmm hr
          (q := r) (by simp [withoutLocal, hrem]) e
        · exact ⟨_, h, hinv⟩
        · exact ⟨_, h, hinv⟩

/-- Nothing else flags it. -/
theorem locals_not_flagged {l : List N}
    (h : ∀ m, m = mm ∨ m ∈ l → ∀ r ∈ s.cell (m, x) off,
      r.target ≠ .invalidated ∧ isRemovable G parent n r = false) :
    ¬ HoldsInvalidated (content
      (l.foldl (turn (removeLocals G parent n) (withoutLocal G parent n) s mm x off)
        (s.entry (mm, x) off))) := by
  have hclean : ∀ r ∈ content
      (l.foldl (turn (removeLocals G parent n) (withoutLocal G parent n) s mm x off)
        (s.entry (mm, x) off)), r.target ≠ .invalidated ∧ isRemovable G parent n r = false := by
    refine List.foldlRecOn (motive := fun e => ∀ r ∈ content e, r.target ≠ .invalidated ∧
      isRemovable G parent n r = false) l _ (fun r hr => ?_) fun e he b hb => ?_
    · exact h mm (Or.inl rfl) r (by rwa [State.cell_eq_entry])
    · have hno : NoLocals G parent n (content e) := fun r hr => (he r hr).2
      by_cases hpart : TakesPart s mm x b
      · intro r hr
        obtain hr | ⟨q, hq, hr⟩ := mem_of_turn hpart hr
        · rw [content_changed_removeLocals, removeLocals_of_noLocals hno] at hr
          exact he r hr
        · have hq' : q.target ≠ .invalidated ∧ isRemovable G parent n q = false := by
            unfold source at hq
            split at hq
            · rw [content_changed_removeLocals, removeLocals_of_noLocals hno] at hq
              exact he q hq
            · exact h b (Or.inr hb) q hq
          obtain ⟨-, hrem⟩ | ⟨rfl, -⟩ := mem_withoutLocal hr
          · rw [hq'.2] at hrem
            cases hrem
          · exact hq'
      · rw [turn_of_not hpart]
        exact he
  rintro ⟨r, hr, hinv⟩
  exact (hclean r hr).1 hinv

/-- A pointer that is not removable is kept when another map has it. -/
theorem locals_kept {l : List N} {pm : N} (hpm : pm ∈ l) (hne : pm ≠ mm) {q : Pointer N}
    (hq : (s.cell (pm, x) off).Covers q) (hnot : isRemovable G parent n q = false) :
    (content (l.foldl (turn (removeLocals G parent n) (withoutLocal G parent n) s mm x off)
      (s.entry (mm, x) off))).Covers q := by
  have hkey := foldl_establishes (P := fun _ => True)
    (Q := fun e => NoLocals G parent n (content e) ∧ (content e).Covers q)
    (f := turn (removeLocals G parent n) (withoutLocal G parent n) s mm x off) hpm
    (fun _ _ _ _ => trivial) (fun e _ => ?_)
    (fun e b _ he => ⟨noLocals_turn (Or.inr he.1), covers_turn_of_noLocals he.1 he.2 b⟩)
    (e := s.entry (mm, x) off) trivial
  · exact hkey.2
  · obtain hq | hq := hq
    · exact ⟨noLocals_turn (Or.inl (takesPart_of_mem hq)),
        covers_turn _ _ hne hq (by simp [withoutLocal, hnot]) e⟩
    · have hnot' : isRemovable G parent n q.widen = false := hnot
      have hcovers := covers_turn (removeLocals G parent n) (withoutLocal G parent n) hne hq
        (q := q.widen) (by simp [withoutLocal, hnot']) e
      exact ⟨noLocals_turn (Or.inl (takesPart_of_mem hq)), Or.inr (hcovers.elim id id)⟩

/-- What the entry of the node has is kept, where nothing is removed or when it is a pointer to an
allocation. -/
theorem locals_kept_own {l : List N} {q : Pointer N} (hq : q ∈ s.cell (mm, x) off)
    (hnot : isRemovable G parent n q = false)
    (h : NoLocals G parent n (s.cell (mm, x) off) ∨ ∃ a, q.target = .node a ∧ G.kind a = .alloc) :
    (content (l.foldl (turn (removeLocals G parent n) (withoutLocal G parent n) s mm x off)
      (s.entry (mm, x) off))).Covers q := by
  rw [State.cell_eq_entry] at hq h
  obtain hno | ⟨a, ha, halloc⟩ := h
  · have hkey := List.foldlRecOn
      (motive := fun e => NoLocals G parent n (content e) ∧ (content e).Covers q) l
      (turn (removeLocals G parent n) (withoutLocal G parent n) s mm x off)
      ⟨hno, Or.inl hq⟩
      fun e he b _ => ⟨noLocals_turn (Or.inr he.1), covers_turn_of_noLocals he.1 he.2 b⟩
    exact hkey.2
  · refine List.foldlRecOn (motive := fun e => (content e).Covers q) l _ (Or.inl hq)
      fun e he b _ => ?_
    exact keeps_turn (fun hgrows hS => hgrows.covers hS)
      (fun S hS => covers_removeLocals hS ha halloc hnot) he b

/-- Where the entry of the node has a removable pointer, everything is lost that points to no
allocation and that no other map has. -/
theorem locals_lost {l : List N} (hmm : mm ∈ l)
    (hlocals : ¬ NoLocals G parent n (s.cell (mm, x) off)) {q : Pointer N}
    (hinv : q.target ≠ .invalidated) (halloc : ∀ a, q.target = .node a → G.kind a ≠ .alloc)
    (hother : ∀ pm ∈ l, pm ≠ mm → ¬ (s.cell (pm, x) off).Covers q) :
    ¬ (content (l.foldl (turn (removeLocals G parent n) (withoutLocal G parent n) s mm x off)
      (s.entry (mm, x) off))).Covers q := by
  rw [State.cell_eq_entry] at hlocals
  -- a turn that takes part loses it, and it does not come back
  have hturn : ∀ e, ∀ b ∈ l, TakesPart s mm x b →
      ¬ (content (changed (removeLocals G parent n) e)).Covers q →
      ¬ (content (turn (removeLocals G parent n) (withoutLocal G parent n) s mm x off e b)).Covers q := by
    intro e b hb hpart hnot
    have hcov : ∀ {S : PointsToSet N} {r : Pointer N}, (r = q ∨ r = q.widen) → r ∈ S →
        S.Covers q := by
      rintro S r (rfl | rfl) h
      · exact Or.inl h
      · exact Or.inr h
    have hkey : ∀ r, r.target = q.target → (r = q ∨ r = q.widen) →
        r ∉ content (turn (removeLocals G parent n) (withoutLocal G parent n) s mm x off e b) := by
      intro r htarget hr hmem
      obtain hmem | ⟨p, hp, hmem⟩ := mem_of_turn hpart hmem
      · exact hnot (hcov hr hmem)
      · obtain ⟨rfl, -⟩ | ⟨rfl, -⟩ := mem_withoutLocal hmem
        · exact hinv htarget.symm
        · unfold source at hp
          split at hp
          · exact hnot (hcov hr hp)
          · next hne => exact hother b hb hne (hcov hr hp)
    rintro (hmem | hmem)
    · exact hkey q rfl (Or.inl rfl) hmem
    · exact hkey q.widen rfl (Or.inr rfl) hmem
  have hfirst : ¬ (content (changed (removeLocals G parent n) (s.entry (mm, x) off))).Covers q := by
    rw [content_changed_removeLocals]
    have htargets := fun p hp => target_of_removeLocals hlocals (p := p) hp
    rintro (hmem | hmem)
    · obtain h | ⟨a, ha, hkind⟩ := htargets q hmem
      · exact hinv h
      · exact halloc a ha hkind
    · obtain h | ⟨a, ha, hkind⟩ := htargets q.widen hmem
      · exact hinv h
      · exact halloc a ha hkind
  have hlater : ∀ e, ∀ b ∈ l, (NoLocals G parent n (content e) ∧ ¬ (content e).Covers q) →
      NoLocals G parent n (content (turn (removeLocals G parent n) (withoutLocal G parent n)
        s mm x off e b)) ∧ ¬ (content (turn (removeLocals G parent n) (withoutLocal G parent n)
          s mm x off e b)).Covers q := by
    intro e b hb he
    refine ⟨noLocals_turn (Or.inr he.1), ?_⟩
    by_cases hpart : TakesPart s mm x b
    · apply hturn e b hb hpart
      rw [content_changed_removeLocals, removeLocals_of_noLocals he.1]
      exact he.2
    · rw [turn_of_not hpart]
      exact he.2
  have hkey := foldl_establishes (f := turn (removeLocals G parent n) (withoutLocal G parent n)
      s mm x off)
    (P := fun e => e = s.entry (mm, x) off ∨
      (NoLocals G parent n (content e) ∧ ¬ (content e).Covers q))
    (Q := fun e => NoLocals G parent n (content e) ∧ ¬ (content e).Covers q) hmm
    (fun e b hb he => ?_) (fun e he => ?_) hlater (Or.inl rfl)
  · exact hkey.2
  · obtain rfl | he := he
    · by_cases hpart : TakesPart s mm x b
      · exact Or.inr ⟨noLocals_turn (Or.inl hpart), hturn _ b hb hpart hfirst⟩
      · rw [turn_of_not hpart]
        exact Or.inl rfl
    · exact Or.inr (hlater e b hb he)
  · obtain rfl | he := he
    · exact ⟨noLocals_turn (Or.inl (Or.inl rfl)), hturn _ mm hmm (Or.inl rfl) hfirst⟩
    · exact hlater e mm hmm he

end Locals

/-! ## Freed memory -/

section Freed

variable [Fintype N] {G : PointerGraph N} {parent : N → Option Nat} {operand : PointsToSet N}

/-- A strong update is one of a single pointer, to a node of the graph. -/
theorem exists_of_invStrongUpdate (h : invStrongUpdate G parent operand = true) :
    ∃ a o, operand.pointers = [⟨.node a, o⟩] := by
  unfold invStrongUpdate at h
  split at h
  · next p hp =>
      obtain ⟨x, o⟩ := p
      cases x with
      | node a => exact ⟨a, o, hp⟩
      | nullptr => simp [isInvalidTarget] at h
      | unknownMemory => simp [isInvalidTarget] at h
      | invalidated => simp [isInvalidTarget] at h
  · cases h

omit [Fintype N] in
theorem pointsToTarget_of_pointers {a b : N} {o : Offset} (h : operand.pointers = [⟨.node a, o⟩]) :
    operand.pointsToTarget (.node b) = true ↔ b = a := by
  rw [PointsToSet.pointsToTarget, h]
  simp [eq_comm]

/-- What a strong update does to a set. -/
theorem removeFreed_strong (h : invStrongUpdate G parent operand = true) {a : N} {o : Offset}
    (ha : operand.pointers = [⟨.node a, o⟩]) (S : PointsToSet N) :
    (removeFreed G parent operand S).1 =
      if S.pointsToTarget (.node a) then replaceTargetWithInv S (.node a) else S := by
  rw [removeFreed, if_pos h, ha]
  simp only [Pointer.isUnknown, Pointer.isNull, Pointer.isInvalidated]
  split
  · next hunknown => simp at hunknown
  · split
    · next hnull => simp at hnull
    · split <;> rfl

omit [Fintype N] in
theorem grows_weakUpdate (p : Pointer N) (S : PointsToSet N) :
    PointsToSet.Grows S (weakUpdate p S).1 := by
  rw [weakUpdate]
  split
  · exact .refl S
  · split
    · exact PointsToSet.grows_add invalidated S
    · exact .refl S

/-- A weak update only adds. -/
theorem grows_removeFreed_weak (h : invStrongUpdate G parent operand = false) (S : PointsToSet N) :
    PointsToSet.Grows S (removeFreed G parent operand S).1 := by
  rw [removeFreed, if_neg (by simp [h])]
  exact Step.each_keeps (P := fun T => PointsToSet.Grows S T)
    (fun p _ T hT => hT.trans (grows_weakUpdate p T)) (.refl S)

/-- A weak update flags a set in which some pointer may be freed. -/
theorem holdsInvalidated_removeFreed_weak (h : invStrongUpdate G parent operand = false)
    {p : Pointer N} (hp : p ∈ operand) (hvalid : p.target ≠ .nullptr ∧ p.target ≠ .invalidated)
    {S : PointsToSet N} (hS : p.target = .unknownMemory ∨ S.pointsToTarget p.target = true) :
    HoldsInvalidated (removeFreed G parent operand S).1 := by
  rw [removeFreed, if_neg (by simp [h])]
  have hpoints : ∀ {T : PointsToSet N}, PointsToSet.Grows S T →
      p.target = .unknownMemory ∨ T.pointsToTarget p.target = true := by
    intro T hT
    refine hS.imp_right fun h => ?_
    obtain ⟨q, hq, htarget⟩ := pointsToTarget_iff.1 h
    obtain hq' | ⟨hq', -⟩ := hT q hq
    · exact pointsToTarget_iff.2 ⟨q, hq', htarget⟩
    · exact pointsToTarget_iff.2 ⟨q.widen, hq', htarget⟩
  have hp : p ∈ operand.pointers := hp
  refine Step.each_visits PointsToSet.Grows.refl (fun h h' => h.trans h') grows_weakUpdate
    HoldsInvalidated.grows hp fun T hT => ?_
  have hnull : (p.isNull || p.isInvalidated) = false := by
    simp [Pointer.isNull, Pointer.isInvalidated, hvalid.1, hvalid.2]
  have hmay : (p.isUnknown || T.pointsToTarget p.target) = true := by
    obtain h | h := hpoints hT
    · simp [Pointer.isUnknown, h]
    · simp [h]
  rw [weakUpdate, hnull, hmay]
  exact holdsInvalidated_add T

theorem holdsInvalidated_removeFreed {S : PointsToSet N} (h : HoldsInvalidated S) :
    HoldsInvalidated (removeFreed G parent operand S).1 := by
  cases hstrong : invStrongUpdate G parent operand with
  | true =>
      obtain ⟨a, o, ha⟩ := exists_of_invStrongUpdate hstrong
      rw [removeFreed_strong hstrong ha]
      split
      · exact holdsInvalidated_replaceWithInv _ S
      · exact h
  | false => exact HoldsInvalidated.grows (grows_removeFreed_weak hstrong S) h

/-- A set with a pointer to an object that the operand points to is flagged. -/
theorem holdsInvalidated_removeFreed_of_points {S : PointsToSet N} {a : N}
    (ha : operand.pointsToTarget (.node a) = true) (hS : S.pointsToTarget (.node a) = true) :
    HoldsInvalidated (removeFreed G parent operand S).1 := by
  cases hstrong : invStrongUpdate G parent operand with
  | true =>
      obtain ⟨b, o, hb⟩ := exists_of_invStrongUpdate hstrong
      obtain rfl := (pointsToTarget_of_pointers hb).1 ha
      rw [removeFreed_strong hstrong hb, if_pos hS]
      exact holdsInvalidated_replaceWithInv _ S
  | false =>
      obtain ⟨p, hp, htarget⟩ := pointsToTarget_iff.1 ha
      exact holdsInvalidated_removeFreed_weak hstrong hp (by simp [htarget])
        (Or.inr (by rw [htarget]; exact hS))

/-- The operand surely points to the target, and to nothing else. -/
def Freed (G : PointerGraph N) (parent : N → Option Nat) (operand : PointsToSet N) (x : PSNode N) :
    Prop :=
  invStrongUpdate G parent operand = true ∧ operand.pointsToTarget x = true

/-- Only pointers to what is surely freed are taken away. -/
theorem covers_removeFreed {S : PointsToSet N} {p : Pointer N} (hp : S.Covers p)
    (hnot : ¬ Freed G parent operand p.target) : (removeFreed G parent operand S).1.Covers p := by
  cases hstrong : invStrongUpdate G parent operand with
  | true =>
      obtain ⟨a, o, ha⟩ := exists_of_invStrongUpdate hstrong
      rw [removeFreed_strong hstrong ha]
      split
      · refine covers_replaceWithInv hp ?_ rfl
        have hne : p.target ≠ .node a := fun heq =>
          hnot ⟨hstrong, by rw [heq]; exact (pointsToTarget_of_pointers ha).2 rfl⟩
        simp [hne]
      · exact hp
  | false => exact (grows_removeFreed_weak hstrong S).covers hp

/-- Nothing points to what is surely freed. -/
theorem target_of_removeFreed {S : PointsToSet N} {a : N} (h : Freed G parent operand (.node a))
    {p : Pointer N} (hp : p ∈ (removeFreed G parent operand S).1) : p.target ≠ .node a := by
  obtain ⟨b, o, hb⟩ := exists_of_invStrongUpdate h.1
  obtain rfl := (pointsToTarget_of_pointers hb).1 h.2
  rw [removeFreed_strong h.1 hb] at hp
  split at hp
  · obtain rfl | ⟨-, hkeep⟩ := mem_of_replaceWithInv hp
    · simp [invalidated]
    · simpa using hkeep
  · next hnot =>
      intro heq
      exact hnot (pointsToTarget_iff.2 ⟨p, hp, heq⟩)

theorem mem_withoutFreed {p q : Pointer N} (h : q ∈ withoutFreed G parent operand p) :
    (q = p ∧ (p.isValid = true → ¬ Freed G parent operand p.target)) ∨
      (q = invalidated ∧ p.isValid = true ∧ operand.pointsToTarget p.target = true) := by
  unfold withoutFreed at h
  split at h
  · next hpoints =>
      obtain ⟨hvalid, hpoints⟩ := Bool.and_eq_true_iff.1 hpoints
      split at h
      · exact Or.inr ⟨List.mem_singleton.1 h, hvalid, hpoints⟩
      · next hweak =>
          obtain rfl | h := List.mem_cons.1 h
          · exact Or.inl ⟨rfl, fun _ hfreed => hweak hfreed.1⟩
          · exact Or.inr ⟨List.mem_singleton.1 h, hvalid, hpoints⟩
  · next hnot =>
      obtain rfl := List.mem_singleton.1 h
      exact Or.inl ⟨rfl, fun hvalid hfreed => hnot (by simp [hvalid, hfreed.2])⟩

theorem mem_withoutFreed_self {p : Pointer N}
    (h : p.isValid = true → ¬ Freed G parent operand p.target) :
    p ∈ withoutFreed G parent operand p := by
  unfold withoutFreed
  split
  · next hpoints =>
      obtain ⟨hvalid, hpoints⟩ := Bool.and_eq_true_iff.1 hpoints
      split
      · next hstrong => exact absurd ⟨hstrong, hpoints⟩ (h hvalid)
      · exact List.mem_cons_self
  · exact List.mem_singleton_self p

theorem invalidated_mem_withoutFreed {p : Pointer N} (hvalid : p.isValid = true)
    (hpoints : operand.pointsToTarget p.target = true) :
    invalidated ∈ withoutFreed G parent operand p := by
  unfold withoutFreed
  rw [if_pos (by simp [hvalid, hpoints])]
  split
  · exact List.mem_singleton_self _
  · simp

/-! ### The turns of a FREE or INVALIDATE_OBJECT node -/

variable {s : State N (Key N)} {mm : N} {x : PSNode N} {off : Offset}

theorem not_freed_of_static {y : PSNode N} (h : ∀ a, y ≠ .node a) :
    ¬ Freed G parent operand y := by
  rintro ⟨hstrong, hpoints⟩
  obtain ⟨a, o, ha⟩ := exists_of_invStrongUpdate hstrong
  obtain ⟨p, hp, rfl⟩ := pointsToTarget_iff.1 hpoints
  have hp : p ∈ operand.pointers := hp
  rw [ha, List.mem_singleton] at hp
  exact h a (congrArg Pointer.target hp)

theorem holdsInvalidated_turn_freed {e : Option (PointsToSet N)}
    (h : HoldsInvalidated (content e)) (pm : N) : HoldsInvalidated (content
      (turn (removeFreed G parent operand) (withoutFreed G parent operand) s mm x off e pm)) :=
  keeps_turn (fun hgrows => HoldsInvalidated.grows hgrows)
    (fun _ hS => holdsInvalidated_removeFreed hS) h pm

omit [DecidableEq N] [Fintype N] in
theorem content_changed (change : Step (PointsToSet N)) {e : Option (PointsToSet N)}
    (he : e.isSome = true) : content (changed change e) = (change (content e)).1 := by
  obtain ⟨S, rfl⟩ := Option.isSome_iff_exists.1 he
  rfl

omit [DecidableEq N] [Fintype N] in
theorem isSome_of_mem {e : Option (PointsToSet N)} {p : Pointer N} (h : p ∈ content e) :
    e.isSome = true := by
  cases e with
  | none => exact absurd h (PointsToSet.mem_empty p)
  | some S => rfl

/-- A pointer to an object that the operand points to flags the entry. -/
theorem freed_flagged {l : List N} {pm : N} (hpm : pm ∈ l) {q : Pointer N}
    (hq : q ∈ s.cell (pm, x) off) {a : N} (hqa : q.target = .node a)
    (ha : operand.pointsToTarget (.node a) = true) :
    HoldsInvalidated (content
      (l.foldl (turn (removeFreed G parent operand) (withoutFreed G parent operand) s mm x off)
        (s.entry (mm, x) off))) := by
  have hvalid : q.isValid = true := by
    simp [Pointer.isValid, Pointer.isNull, Pointer.isUnknown, hqa]
  by_cases hmm : pm = mm
  · subst hmm
    have hturn : ∀ e b, (HoldsInvalidated (content e) ∨
        (content e).pointsToTarget (.node a) = true) → TakesPart s pm x b →
        HoldsInvalidated (content (turn (removeFreed G parent operand)
          (withoutFreed G parent operand) s pm x off e b)) := by
      rintro e b (he | he) hb
      · exact holdsInvalidated_turn_freed he b
      · rw [turn_of hb]
        apply HoldsInvalidated.grows (grows_addAll _ _)
        obtain ⟨p, hp, -⟩ := pointsToTarget_iff.1 he
        rw [content_changed _ (isSome_of_mem hp)]
        exact holdsInvalidated_removeFreed_of_points ha he
    refine foldl_establishes (Q := fun e => HoldsInvalidated (content e))
      (P := fun e => HoldsInvalidated (content e) ∨ (content e).pointsToTarget (.node a) = true)
      hpm (fun e b _ he => ?_) (fun e he => hturn e pm he (Or.inl rfl))
      (fun e b _ he => holdsInvalidated_turn_freed he b) (Or.inr ?_)
    · by_cases hb : TakesPart s pm x b
      · exact Or.inl (hturn e b he hb)
      · rw [turn_of_not hb]
        exact he
    · rw [State.cell_eq_entry] at hq
      exact pointsToTarget_iff.2 ⟨q, hq, hqa⟩
  · refine foldl_establishes (Q := fun e => HoldsInvalidated (content e)) (P := fun _ => True) hpm
      (fun _ _ _ _ => trivial) (fun e _ => ?_)
      (fun e b _ he => holdsInvalidated_turn_freed he b) trivial
    exact holdsInvalidated_of_covers
      (covers_turn _ _ hmm hq (invalidated_mem_withoutFreed hvalid (by rw [hqa]; exact ha)) e)

/-- Pointers that are not surely freed are kept. -/
theorem freed_kept {l : List N} {pm : N} (hpm : pm ∈ l) {q : Pointer N}
    (hq : q ∈ s.cell (pm, x) off) (hnot : ¬ Freed G parent operand q.target) :
    (content (l.foldl (turn (removeFreed G parent operand) (withoutFreed G parent operand)
      s mm x off) (s.entry (mm, x) off))).Covers q := by
  have hkeep : ∀ e b, (content e).Covers q → (content (turn (removeFreed G parent operand)
      (withoutFreed G parent operand) s mm x off e b)).Covers q := fun e b he =>
    keeps_turn (fun hgrows hS => hgrows.covers hS) (fun S hS => covers_removeFreed hS hnot) he b
  by_cases hmm : pm = mm
  · subst hmm
    rw [State.cell_eq_entry] at hq
    exact List.foldlRecOn (motive := fun e => (content e).Covers q) l _ (Or.inl hq)
      fun e he b _ => hkeep e b he
  · exact foldl_establishes (Q := fun e => (content e).Covers q) (P := fun _ => True) hpm
      (fun _ _ _ _ => trivial)
      (fun e _ => covers_turn _ _ hmm hq (mem_withoutFreed_self fun _ => hnot) e)
      (fun e b _ he => hkeep e b he) trivial

/-- Pointers to what is surely freed are gone. -/
theorem freed_lost {l : List N} {pm : N} (hpm : pm ∈ l) (hpart : TakesPart s mm x pm) {a : N}
    (h : Freed G parent operand (.node a)) {q : Pointer N} (hq : q.target = .node a) :
    ¬ (content (l.foldl (turn (removeFreed G parent operand) (withoutFreed G parent operand)
      s mm x off) (s.entry (mm, x) off))).Covers q := by
  have hturn : ∀ e b, TakesPart s mm x b → ∀ p ∈ content (turn (removeFreed G parent operand)
      (withoutFreed G parent operand) s mm x off e b), p.target ≠ .node a := by
    intro e b hb p hp
    obtain hp | ⟨r, -, hp⟩ := mem_of_turn hb hp
    · rw [content_changed _ (by cases e with
        | none => exact absurd hp (PointsToSet.mem_empty p)
        | some S => rfl)] at hp
      exact target_of_removeFreed h hp
    · obtain ⟨rfl, hnot⟩ | ⟨rfl, -⟩ := mem_withoutFreed hp
      · intro hpa
        refine hnot ?_ (by rw [hpa]; exact h)
        simp [Pointer.isValid, Pointer.isNull, Pointer.isUnknown, hpa]
      · simp [invalidated]
  have hgone := foldl_establishes
    (f := turn (removeFreed G parent operand) (withoutFreed G parent operand) s mm x off)
    (Q := fun e => ∀ p ∈ content e, p.target ≠ .node a) (P := fun _ => True) hpm
    (fun _ _ _ _ => trivial) (fun e _ => hturn e pm hpart)
    (fun e b _ he => by
      by_cases hb : TakesPart s mm x b
      · exact hturn e b hb
      · rw [turn_of_not hb]
        exact he) (e := s.entry (mm, x) off) trivial
  rintro (hmem | hmem)
  · exact hgone q hmem hq
  · exact hgone q.widen hmem hq

/-- Where the operand has the unknown pointer: what flags an entry that has no pointer to an object
that the operand points to. The node has the entry already, or one of the maps has a pointer that is
INVALIDATED or that the operand points to, or another map with the object comes behind one that makes
the entry. -/
def Flagged (operand : PointsToSet N) (s : State N (Key N)) (l : List N) (mm : N) (x : PSNode N)
    (off : Offset) : Prop :=
  (s.entry (mm, x) off).isSome = true ∨
  (∃ m ∈ l, ∃ r ∈ s.cell (m, x) off, r.target = .invalidated ∨
    (r.isValid = true ∧ operand.pointsToTarget r.target = true)) ∨
  ∃ l₁ m l₂, l = l₁ ++ m :: l₂ ∧ (s.cell (m, x) off).isEmpty = false ∧
    ∃ k ∈ l₂, TakesPart s mm x k

theorem invStrongUpdate_of_unknown (h : operand.pointsToTarget .unknownMemory = true) :
    invStrongUpdate G parent operand = false := by
  cases hstrong : invStrongUpdate G parent operand with
  | false => rfl
  | true => exact absurd ⟨hstrong, h⟩ (not_freed_of_static fun a => by simp)

theorem isSome_turn {e : Option (PointsToSet N)} {pm : N}
    (h : e.isSome = true ∨ (pm ≠ mm ∧ (s.cell (pm, x) off).isEmpty = false)) :
    (turn (removeFreed G parent operand) (withoutFreed G parent operand) s mm x off e pm).isSome =
      true := by
  by_cases hpart : TakesPart s mm x pm
  · rw [turn_of hpart, isSome_addAll]
    refine h.imp (fun he => by simpa [changed] using he) fun ⟨hne, hcell⟩ => ?_
    rw [source, if_neg hne]
    have hnil : (s.cell (pm, x) off).pointers ≠ [] := by
      intro hnil
      rw [PointsToSet.isEmpty, hnil] at hcell
      cases hcell
    obtain ⟨p, hp⟩ := List.exists_mem_of_ne_nil _ hnil
    -- every pointer has an image
    have himage : ∃ q, q ∈ withoutFreed G parent operand p := by
      unfold withoutFreed
      split
      · split
        · exact ⟨_, List.mem_singleton_self _⟩
        · exact ⟨_, List.mem_cons_self⟩
      · exact ⟨_, List.mem_singleton_self _⟩
    obtain ⟨q, hq⟩ := himage
    exact List.ne_nil_of_mem (List.mem_flatMap.2 ⟨p, hp, hq⟩)
  · rw [turn_of_not hpart]
    refine h.resolve_right fun ⟨_, hcell⟩ => hpart ?_
    right
    cases ho : s.objects (pm, x) with
    | none => simp [State.cell, ho, PointsToSet.empty, PointsToSet.isEmpty] at hcell
    | some o => rfl

/-- The unknown pointer flags the entries that are there. -/
theorem holdsInvalidated_turn_unknown (hunknown : operand.pointsToTarget .unknownMemory = true)
    {e : Option (PointsToSet N)} (he : e.isSome = true) {pm : N} (hpart : TakesPart s mm x pm) :
    HoldsInvalidated (content (turn (removeFreed G parent operand)
      (withoutFreed G parent operand) s mm x off e pm)) := by
  rw [turn_of hpart]
  apply HoldsInvalidated.grows (grows_addAll _ _)
  rw [content_changed _ he]
  obtain ⟨p, hp, htarget⟩ := pointsToTarget_iff.1 hunknown
  exact holdsInvalidated_removeFreed_weak (invStrongUpdate_of_unknown hunknown) hp
    (by simp [htarget]) (Or.inl htarget)

theorem holdsInvalidated_of_flagged (hunknown : operand.pointsToTarget .unknownMemory = true)
    {l : List N} {pm : N} (hpm : pm ∈ l) (hpart : TakesPart s mm x pm)
    (h : Flagged operand s l mm x off) :
    HoldsInvalidated (content
      (l.foldl (turn (removeFreed G parent operand) (withoutFreed G parent operand) s mm x off)
        (s.entry (mm, x) off))) := by
  have hfrom : ∀ {l : List N} {k : N}, k ∈ l → TakesPart s mm x k →
      ∀ {e : Option (PointsToSet N)}, e.isSome = true → HoldsInvalidated (content
        (l.foldl (turn (removeFreed G parent operand) (withoutFreed G parent operand)
          s mm x off) e)) := by
    intro l k hk hkpart e he
    exact foldl_establishes
      (f := turn (removeFreed G parent operand) (withoutFreed G parent operand) s mm x off)
      (Q := fun e => HoldsInvalidated (content e))
      (P := fun e : Option (PointsToSet N) => e.isSome = true) hk (fun e b _ he => isSome_turn (Or.inl he))
      (fun e he => holdsInvalidated_turn_unknown hunknown he hkpart)
      (fun e b _ he => holdsInvalidated_turn_freed he b) he
  obtain hsome | ⟨m, hm, r, hr, hmark⟩ | ⟨l₁, m, l₂, rfl, hcell, k, hk, hkpart⟩ := h
  · exact hfrom hpm hpart hsome
  · by_cases hmm : m = mm
    · subst hmm
      rw [State.cell_eq_entry] at hr
      exact hfrom hpm hpart (isSome_of_mem hr)
    · refine foldl_establishes (Q := fun e => HoldsInvalidated (content e)) (P := fun _ => True) hm
        (fun _ _ _ _ => trivial) (fun e _ => ?_)
        (fun e b _ he => holdsInvalidated_turn_freed he b) trivial
      obtain hinv | ⟨hvalid, hpoints⟩ := hmark
      · have hself : r ∈ withoutFreed G parent operand r := mem_withoutFreed_self fun _ =>
          not_freed_of_static fun a => by simp [hinv]
        obtain h | h := covers_turn (removeFreed G parent operand) _ hmm hr hself e
        · exact ⟨_, h, hinv⟩
        · exact ⟨_, h, hinv⟩
      · exact holdsInvalidated_of_covers
          (covers_turn _ _ hmm hr (invalidated_mem_withoutFreed hvalid hpoints) e)
  · rw [List.foldl_append, List.foldl_cons]
    by_cases hmm : m = mm
    · subst hmm
      have hsome : (s.entry (m, x) off).isSome = true := by
        cases he : s.entry (m, x) off with
        | none => simp [State.cell_eq_entry, he, PointsToSet.empty, PointsToSet.isEmpty] at hcell
        | some S => rfl
      apply hfrom hk hkpart
      apply isSome_turn
      left
      exact List.foldlRecOn (motive := fun e : Option (PointsToSet N) => e.isSome = true) l₁ _ hsome
        fun e he b _ => isSome_turn (Or.inl he)
    · exact hfrom hk hkpart (isSome_turn (Or.inr ⟨hmm, hcell⟩))

/-- Nothing else flags it. -/
theorem flagged_of_holdsInvalidated {l : List N}
    (h : HoldsInvalidated (content
      (l.foldl (turn (removeFreed G parent operand) (withoutFreed G parent operand) s mm x off)
        (s.entry (mm, x) off)))) : Flagged operand s l mm x off := by
  by_contra hnot
  obtain ⟨hentry, hrest⟩ := not_or.1 hnot
  obtain ⟨hmarks, hlater⟩ := not_or.1 hrest
  have hnone : s.entry (mm, x) off = none := by simpa using hentry
  have hkey : ∀ l : List N, (∀ m ∈ l, ∀ r ∈ s.cell (m, x) off, ¬ (r.target = .invalidated ∨
      (r.isValid = true ∧ operand.pointsToTarget r.target = true))) →
      (∀ l₁ m l₂, l = l₁ ++ m :: l₂ → (s.cell (m, x) off).isEmpty = false →
        ∀ k ∈ l₂, ¬ TakesPart s mm x k) →
      ¬ HoldsInvalidated (content (l.foldl (turn (removeFreed G parent operand)
        (withoutFreed G parent operand) s mm x off) none)) := by
    intro l
    induction l with
    | nil => rintro - - ⟨p, hp, -⟩; exact absurd hp (PointsToSet.mem_empty p)
    | cons m l ih =>
        intro hmarks hlater
        rw [List.foldl_cons]
        have hnext := ih (fun k hk => hmarks k (List.mem_cons_of_mem m hk))
          fun l₁ k l₂ hl => hlater (m :: l₁) k l₂ (by rw [hl]; rfl)
        cases hcell : (s.cell (m, x) off).isEmpty with
        | true =>
            -- nothing to merge
            have hturn : turn (removeFreed G parent operand) (withoutFreed G parent operand)
                s mm x off none m = none := by
              have hnil : (s.cell (m, x) off).pointers = [] := List.isEmpty_iff.1 hcell
              by_cases hpart : TakesPart s mm x m
              · rw [turn_of hpart, source]
                split
                · rfl
                · rw [hnil]
                  rfl
              · exact turn_of_not hpart none
            rw [hturn]
            exact hnext
        | false =>
            have hrest : ∀ e, l.foldl (turn (removeFreed G parent operand)
                (withoutFreed G parent operand) s mm x off) e = e := fun e =>
              List.foldlRecOn (motive := fun e' => e' = e) l _ rfl fun e' he b hb => by
                rw [turn_of_not (hlater [] m l rfl hcell b hb)]
                exact he
            rw [hrest]
            rintro ⟨p, hp, hinv⟩
            by_cases hpart : TakesPart s mm x m
            · obtain hp | ⟨r, hr, hp⟩ := mem_of_turn hpart hp
              · exact absurd hp (PointsToSet.mem_empty p)
              · have hr' : r ∈ s.cell (m, x) off := by
                  unfold source at hr
                  split at hr
                  · exact absurd hr (PointsToSet.mem_empty r)
                  · exact hr
                obtain ⟨rfl, -⟩ | ⟨-, hvalid, hpoints⟩ := mem_withoutFreed hp
                · exact hmarks m List.mem_cons_self p hr' (Or.inl hinv)
                · exact hmarks m List.mem_cons_self r hr' (Or.inr ⟨hvalid, hpoints⟩)
            · rw [turn_of_not hpart] at hp
              exact absurd hp (PointsToSet.mem_empty p)
  rw [hnone] at h
  refine hkey l (fun m hm r hr hmark => hmarks ⟨m, hm, r, hr, hmark⟩) ?_ h
  exact fun l₁ m l₂ hl hcell k hk hpart => hlater ⟨l₁, m, l₂, hl, hcell, k, hk, hpart⟩

end Freed

/-! ## When a node is right -/

section Main

variable [Fintype N] (G : PointerGraph N) (order : KeyOrder N)

/-- An INVALIDATE_LOCALS node is right about a place: an entry of a predecessor with a pointer to a
local on a loop is flagged since it is INVALIDATED already or has a pointer that is removed; and where
a predecessor shares the map of the node and a pointer is removed, the null, unknown and function
pointers are also in another map. -/
def LocalsHeeded (n : N) (s : MapState N) (mm y : N) (off : Offset) : Prop :=
  (∀ pm ∈ predecessorMaps G s n, ∀ q ∈ s.state.cell (pm, .node y) off, ∀ a, q.target = .node a →
    G.kind a = .alloc → isLocal G s.state.parent a n = true →
    knownInstance G s.state.parent (.node a) = false →
    ∃ m, (m = mm ∨ m ∈ predecessorMaps G s n) ∧ ∃ r ∈ s.state.cell (m, .node y) off,
      r.target = .invalidated ∨ isRemovable G s.state.parent n r = true) ∧
  (mm ∈ predecessorMaps G s n →
    containsRemovableLocals G s.state.parent n (s.state.cell (mm, .node y) off) = true →
    ∀ q ∈ s.state.cell (mm, .node y) off, (q.target = .nullptr ∨ q.target = .unknownMemory ∨
      ∃ f, q.target = .node f ∧ G.kind f = .function) →
    ∃ pm ∈ predecessorMaps G s n, pm ≠ mm ∧ (s.state.cell (pm, .node y) off).Covers q)

/-- A FREE or INVALIDATE_OBJECT node is right about a place. In the object that is overwritten,
nothing stays valid, and what is destroyed is pointed to from offset 0. Elsewhere, no pointer to a
function is surely freed, and where the operand has the unknown pointer, what it does not point to
otherwise is flagged. -/
def FreedHeeded (n : N) (s : MapState N) (operand : PointsToSet N)
    (strongUpdate : Option (PSNode N)) (mm y : N) (off : Offset) : Prop :=
  ∀ pm ∈ predecessorMaps G s n, ∀ q ∈ s.state.cell (pm, .node y) off,
    if strongUpdate = some (.node y) then
      ¬ StaysValid G s.state n q ∧ (IntoDestroyed G s.state n q → off = 0)
    else
      (∀ a, q.target = .node a → G.kind a = .function →
        ¬ Freed G s.state.parent operand (.node a)) ∧
      (∀ a, q.target = .node a → G.kind a = .alloc →
        operand.pointsToTarget .unknownMemory = true → operand.pointsToTarget (.node a) = false →
        Flagged operand s.state (predecessorMaps G s n) mm (.node y) off)

variable {G}

/-- What `Right` says of a place, for an entry after the node. -/
def RightAt (G : PointerGraph N) (n : N) (s : MapState N) (y : N) (off : Offset)
    (e : Option (PointsToSet N)) : Prop :=
  ∀ pm ∈ predecessorMaps G s n, ∀ q ∈ s.state.cell (pm, .node y) off,
    (IntoDestroyed G s.state n q → HoldsInvalidated (content e)) ∧
    (StaysValid G s.state n q → (content e).Covers q)

theorem locals_right_iff {n : N} {op : PSNode N} (hkind : G.kind n = .invalidateLocals op)
    (s : MapState N) (mm y : N) (off : Offset) :
    RightAt G n s y off ((predecessorMaps G s n).foldl
      (turn (removeLocals G s.state.parent n) (withoutLocal G s.state.parent n) s.state mm
        (.node y) off) (s.state.entry (mm, .node y) off)) ↔ LocalsHeeded G n s mm y off := by
  constructor
  · intro h
    refine ⟨fun pm hpm q hq a ha halloc hlocal _ => ?_, fun hmm hcontains q hq htarget => ?_⟩
    · have hinv := (h pm hpm q hq).1 ⟨a, ha, halloc, by simp only [MayDestroy, hkind]; exact hlocal⟩
      by_contra hnot
      refine locals_not_flagged (fun m hm r hr => ?_) hinv
      constructor
      · exact fun hr' => hnot ⟨m, hm, r, hr, Or.inl hr'⟩
      · by_contra hrem
        exact hnot ⟨m, hm, r, hr, Or.inr (by simpa using hrem)⟩
    · have hstays : StaysValid G s.state n q := by
        obtain hnull | hunknown | ⟨f, hf, hfun⟩ := htarget
        · exact Or.inl hnull
        · exact Or.inr (Or.inl hunknown)
        · exact Or.inr (Or.inr ⟨f, hf, Or.inl hfun⟩)
      have hcovers := (h mm hmm q hq).2 hstays
      by_contra hnot
      refine locals_lost hmm (fun hno => ?_) ?_ ?_ (fun pm hpm hne hcov =>
        hnot ⟨pm, hpm, hne, hcov⟩) hcovers
      · rw [noLocals_iff.1 hno] at hcontains
        cases hcontains
      · obtain hq | hq | ⟨f, hq, -⟩ := htarget <;> simp [hq]
      · intro a ha
        obtain hq | hq | ⟨f, hq, hfun⟩ := htarget
        · simp [hq] at ha
        · simp [hq] at ha
        · obtain rfl : f = a := PSNode.node.inj (hq.symm.trans ha)
          simp [hfun]
  · rintro ⟨hflagged, hkept⟩ pm hpm q hq
    constructor
    · rintro ⟨a, ha, halloc, hmay⟩
      have hlocal : isLocal G s.state.parent a n = true := by
        simpa only [MayDestroy, hkind] using hmay
      have hpart : TakesPart s.state mm (.node y) pm := takesPart_of_mem hq
      cases hknown : knownInstance G s.state.parent (.node a) with
      | true =>
          refine locals_flagged hpm hpart (Or.inr hpm) hq (Or.inr ?_)
          simp [isRemovable, ha, halloc, hlocal, hknown]
      | false =>
          obtain ⟨m, hm, r, hr, hmark⟩ := hflagged pm hpm q hq a ha halloc hlocal hknown
          exact locals_flagged hpm hpart hm hr hmark
    · intro hstays
      have hnot : isRemovable G s.state.parent n q = false := by
        cases hrem : isRemovable G s.state.parent n q with
        | false => rfl
        | true =>
            obtain ⟨a, ha, halloc, hlocal, hknown⟩ := alloc_of_isRemovable hrem
            obtain h | h | ⟨b, hb, hkindb⟩ := hstays
            · simp [ha] at h
            · simp [ha] at h
            · obtain rfl : b = a := PSNode.node.inj (hb.symm.trans ha)
              obtain h | ⟨-, h⟩ := hkindb
              · simp [halloc] at h
              · exact absurd (by simp only [SurelyDestroys, hkind]; exact ⟨hlocal, hknown⟩) h
      by_cases hmm : pm = mm
      · subst hmm
        cases hcontains : containsRemovableLocals G s.state.parent n
            (s.state.cell (pm, .node y) off) with
        | false => exact locals_kept_own hq hnot (Or.inl (noLocals_iff.2 hcontains))
        | true =>
            -- a pointer to an allocation is kept, the others come from another map
            have hother : (q.target = .nullptr ∨ q.target = .unknownMemory ∨
                ∃ f, q.target = .node f ∧ G.kind f = .function) →
                (content ((predecessorMaps G s n).foldl
                  (turn (removeLocals G s.state.parent n) (withoutLocal G s.state.parent n) s.state
                    pm (.node y) off) (s.state.entry (pm, .node y) off))).Covers q := by
              intro htarget
              obtain ⟨m, hm, hne, hcov⟩ := hkept hpm hcontains q hq htarget
              exact locals_kept hm hne hcov hnot
            obtain h | h | ⟨b, hb, hfun | ⟨halloc, -⟩⟩ := hstays
            · exact hother (Or.inl h)
            · exact hother (Or.inr (Or.inl h))
            · exact hother (Or.inr (Or.inr ⟨b, hb, hfun⟩))
            · exact locals_kept_own hq hnot (Or.inr ⟨b, hb, halloc⟩)
      · exact locals_kept hpm hmm (Or.inl hq) hnot

/-- What a FREE or INVALIDATE_OBJECT node destroys. -/
theorem destroys_of_kind {n : N} {op : PSNode N}
    (hkind : G.kind n = .free op ∨ G.kind n = .invalidateObject op) (s : State N (Key N)) (a : N) :
    (MayDestroy G s n a ↔ (s.pts op).pointsToTarget (.node a) = true ∨
      (s.pts op).pointsToTarget .unknownMemory = true) ∧
    (SurelyDestroys G s n a ↔ Freed G s.parent (s.pts op) (.node a)) := by
  obtain hkind | hkind := hkind
  · simp only [MayDestroy, SurelyDestroys, Freed, hkind, and_self, iff_self]
  · simp only [MayDestroy, SurelyDestroys, Freed, hkind, and_self, iff_self]

/-- A place outside the object that is overwritten. -/
theorem freed_right_iff {n : N} {op : PSNode N}
    (hkind : G.kind n = .free op ∨ G.kind n = .invalidateObject op) (s : MapState N)
    {strongUpdate : Option (PSNode N)} {mm y : N} (hne : strongUpdate ≠ some (.node y))
    (off : Offset) :
    RightAt G n s y off ((predecessorMaps G s n).foldl
      (turn (removeFreed G s.state.parent (s.state.pts op))
        (withoutFreed G s.state.parent (s.state.pts op)) s.state mm (.node y) off)
      (s.state.entry (mm, .node y) off)) ↔
    FreedHeeded G n s (s.state.pts op) strongUpdate mm y off := by
  have hmay := fun a => (destroys_of_kind hkind s.state a).1
  have hsurely := fun a => (destroys_of_kind hkind s.state a).2
  constructor
  · intro h pm hpm q hq
    rw [if_neg hne]
    constructor
    · intro a ha hfun hfreed
      have hcovers := (h pm hpm q hq).2 (Or.inr (Or.inr ⟨a, ha, Or.inl hfun⟩))
      exact freed_lost hpm (takesPart_of_mem hq) hfreed ha hcovers
    · intro a ha halloc hunknown _
      exact flagged_of_holdsInvalidated
        ((h pm hpm q hq).1 ⟨a, ha, halloc, (hmay a).2 (Or.inr hunknown)⟩)
  · intro h pm hpm q hq
    obtain ⟨hfunctions, hunknowns⟩ := if_neg hne ▸ h pm hpm q hq
    constructor
    · rintro ⟨a, ha, halloc, hdestroy⟩
      cases hpoints : (s.state.pts op).pointsToTarget (.node a) with
      | true => exact freed_flagged hpm hq ha hpoints
      | false =>
          have hunknown := ((hmay a).1 hdestroy).resolve_left (by simp [hpoints])
          exact holdsInvalidated_of_flagged hunknown hpm (takesPart_of_mem hq)
            (hunknowns a ha halloc hunknown hpoints)
    · intro hstays
      apply freed_kept hpm hq
      obtain hnull | hunknown | ⟨a, ha, hfun | ⟨-, hnot⟩⟩ := hstays
      · exact not_freed_of_static fun a => by simp [hnull]
      · exact not_freed_of_static fun a => by simp [hunknown]
      · rw [ha]
        exact hfunctions a ha hfun
      · rw [ha]
        exact fun hfreed => hnot ((hsurely a).2 hfreed)

omit [DecidableEq N] [Fintype N] in
/-- The entries of the object that is overwritten. -/
theorem content_of_onlyInvalidated {off : Offset} {e : Option (PointsToSet N)}
    (h : OnlyInvalidated off e) :
    (HoldsInvalidated (content e) ↔ off = 0) ∧ ∀ p ∈ content e, p.target = .invalidated := by
  unfold OnlyInvalidated at h
  split at h
  · next hoff =>
      obtain ⟨S, rfl, hS⟩ := h
      have htargets : ∀ p ∈ S, p.target = .invalidated := by
        intro p hp
        have hmem : p.target ∈ S.pointers.map Pointer.target := List.mem_map_of_mem hp
        rw [hS] at hmem
        exact List.mem_singleton.1 hmem
      refine ⟨⟨fun _ => hoff, fun _ => ?_⟩, htargets⟩
      obtain ⟨p, hp⟩ := List.exists_mem_of_ne_nil S.pointers (fun hnil => by simp [hnil] at hS)
      exact ⟨p, hp, htargets p hp⟩
  · next hoff =>
      subst h
      exact ⟨⟨fun ⟨p, hp, _⟩ => absurd hp (PointsToSet.mem_empty p), fun h => absurd h hoff⟩,
        fun p hp => absurd hp (PointsToSet.mem_empty p)⟩

/-- A place in the object that is overwritten. -/
theorem overwritten_right_iff {n : N} (s : MapState N) (operand : PointsToSet N) (mm y : N)
    {off : Offset} {e : Option (PointsToSet N)}
    (he : predecessorMaps G s n ≠ [] → OnlyInvalidated off e) :
    RightAt G n s y off e ↔ FreedHeeded G n s operand (some (.node y)) mm y off := by
  constructor
  · intro h pm hpm q hq
    obtain ⟨hholds, htargets⟩ := content_of_onlyInvalidated (he (List.ne_nil_of_mem hpm))
    rw [if_pos rfl]
    refine ⟨fun hstays => ?_, fun hinto => hholds.1 ((h pm hpm q hq).1 hinto)⟩
    have htarget : q.target = .invalidated := by
      obtain hmem | hmem := (h pm hpm q hq).2 hstays
      · exact htargets q hmem
      · exact htargets q.widen hmem
    obtain h | h | ⟨a, h, -⟩ := hstays <;> simp [htarget] at h
  · intro h pm hpm q hq
    obtain ⟨hholds, -⟩ := content_of_onlyInvalidated (he (List.ne_nil_of_mem hpm))
    obtain ⟨hnot, hoff⟩ := if_pos (rfl : some (PSNode.node y) = some (PSNode.node y)) ▸ h pm hpm q hq
    exact ⟨fun hinto => hholds.2 (hoff hinto), fun hstays => absurd hstays hnot⟩

/-- After the loop over the predecessors of an INVALIDATE_LOCALS node. -/
theorem entry_eachLocals (parent : N → Option Nat) (n mm y : N) (off : Offset) (l : List N)
    (s : State N (Key N)) :
    (Step.each (handleInvalidateLocals G order parent n mm) l s).1.entry (mm, .node y) off =
      l.foldl (turn (removeLocals G parent n) (withoutLocal G parent n) s mm (.node y) off)
        (s.entry (mm, .node y) off) := by
  refine entry_each _ _ (fun pm s k hk => ?_) (fun pm s => ?_) l s
  · exact objects_handlePredecessor _ _ order none hk s
  · exact (entry_handlePredecessor _ _ order none mm pm y off s).trans (if_neg (by simp))

/-- After the loop over the predecessors of a FREE or INVALIDATE_OBJECT node. -/
theorem entry_eachFreed (parent : N → Option Nat) (operand : PointsToSet N)
    {strongUpdate : Option (PSNode N)} {mm y : N} (hne : strongUpdate ≠ some (.node y))
    (off : Offset) (l : List N) (s : State N (Key N)) :
    (Step.each (invalidateMemory G order parent operand strongUpdate mm) l s).1.entry
        (mm, .node y) off =
      l.foldl (turn (removeFreed G parent operand) (withoutFreed G parent operand) s mm (.node y)
        off) (s.entry (mm, .node y) off) := by
  refine entry_each _ _ (fun pm s k hk => ?_) (fun pm s => ?_) l s
  · exact objects_invalidateMemory G order parent operand hk s
  · exact entry_invalidateMemory G order parent operand hne s

theorem entry_eachFreed_overwritten (parent : N → Option Nat) (operand : PointsToSet N)
    (mm y : N) (off : Offset) {l : List N} (hl : l ≠ []) (s : State N (Key N)) :
    OnlyInvalidated off
      ((Step.each (invalidateMemory G order parent operand (some (.node y)) mm) l s).1.entry
        (mm, .node y) off) := by
  obtain ⟨pm, l, rfl⟩ := List.exists_cons_of_ne_nil hl
  let f := invalidateMemory G order parent operand (some (.node y)) mm
  show OnlyInvalidated off ((Step.each f l (f pm s).1).1.entry (mm, .node y) off)
  refine Step.each_keeps (P := fun t : State N (Key N) =>
    OnlyInvalidated off (t.entry (mm, .node y) off)) (fun pm _ t _ => ?_) ?_
  · exact entry_invalidateMemory_overwritten G order parent operand off t
  · exact entry_invalidateMemory_overwritten G order parent operand off s

/-- A place after a FREE or INVALIDATE_OBJECT node. -/
theorem eachFreed_right_iff {n : N} {op : PSNode N}
    (hkind : G.kind n = .free op ∨ G.kind n = .invalidateObject op) (s : MapState N)
    (strongUpdate : Option (PSNode N)) (mm y : N) (off : Offset) :
    RightAt G n s y off
      ((Step.each (invalidateMemory G order s.state.parent (s.state.pts op) strongUpdate mm)
        (predecessorMaps G s n) s.state).1.entry (mm, .node y) off) ↔
    FreedHeeded G n s (s.state.pts op) strongUpdate mm y off := by
  by_cases hne : strongUpdate = some (.node y)
  · subst hne
    exact overwritten_right_iff s _ mm y fun hl =>
      entry_eachFreed_overwritten order _ _ mm y off hl s.state
  · rw [entry_eachFreed order _ _ hne]
    exact freed_right_iff hkind s hne off

/-- **When an invalidating node is right.** -/
theorem invalidation_right_iff (fuel : Nat) {n : N} (hn : canInvalidateMM G n = true)
    {s t : MapState N} {changed : Bool} (h : afterProcessed G order fuel n s = some (t, changed)) :
    Right G n s t ↔ ∀ mm, s.data n = some mm → ∀ y off,
      match G.kind n with
      | .invalidateLocals _ => LocalsHeeded G n s mm y off
      | .invalidateObject operand => FreedHeeded G n s (s.state.pts operand) none mm y off
      | .free operand => ∀ strongUpdate,
          moFromFreeToOverwrite G fuel s.state operand = some strongUpdate →
            FreedHeeded G n s (s.state.pts operand) strongUpdate mm y off
      | _ => True := by
  obtain ⟨mm, hmm, hresult⟩ := Option.bind_eq_some_iff.1 h
  -- one place after the other
  have hplaces : Right G n s t ↔ ∀ y off, RightAt G n s y off (t.state.entry (mm, .node y) off) := by
    constructor
    · intro hright y off pm hpm q hq
      have hplace := hright mm hmm pm hpm y off q hq
      rw [State.cell_eq_entry] at hplace
      exact hplace
    · intro hright mm' hmm' pm hpm y off q hq
      obtain rfl : mm = mm' := Option.some.inj (hmm.symm.trans hmm')
      rw [State.cell_eq_entry]
      exact hright y off pm hpm q hq
  have hone : ∀ {P : N → N → Offset → Prop}, (∀ mm', s.data n = some mm' → ∀ y off, P mm' y off) ↔
      ∀ y off, P mm y off := fun {P} =>
    ⟨fun hP => hP mm hmm, fun hP mm' hmm' => by
      obtain rfl : mm = mm' := Option.some.inj (hmm.symm.trans hmm')
      exact hP⟩
  rw [hplaces, hone]
  refine forall_congr' fun y => forall_congr' fun off => ?_
  cases hkind : G.kind n with
  | invalidateLocals op =>
      rw [hkind] at hresult
      obtain rfl := congrArg Prod.fst (Option.some.inj hresult)
      have hstate : (onState (Step.each (handleInvalidateLocals G order s.state.parent n mm)
          (predecessorMaps G s n)) s).1.state.entry (mm, .node y) off = _ :=
        entry_eachLocals order s.state.parent n mm y off (predecessorMaps G s n) s.state
      rw [hstate]
      exact locals_right_iff hkind s mm y off
  | invalidateObject op =>
      rw [hkind] at hresult
      obtain rfl := congrArg Prod.fst (Option.some.inj hresult)
      exact eachFreed_right_iff order (Or.inr hkind) s none mm y off
  | free op =>
      rw [hkind] at hresult
      obtain ⟨strongUpdate, hstrong, hresult⟩ := Option.map_eq_some_iff.1 hresult
      obtain rfl := congrArg Prod.fst hresult
      refine (eachFreed_right_iff order (Or.inl hkind) s strongUpdate mm y off).trans ?_
      constructor
      · intro hheeded strongUpdate' hstrong'
        obtain rfl : strongUpdate = strongUpdate' := Option.some.inj (hstrong.symm.trans hstrong')
        exact hheeded
      · exact fun hheeded => hheeded strongUpdate hstrong
  | _ => simp [canInvalidateMM, hkind] at hn

end Main

end FSInv

end Cape.PointerAnalysis
