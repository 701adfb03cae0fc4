import Cape.ADT.Offset
import Cape.Library.Reporting

/-!
# Points-to sets

A pointer is a target and an offset into it. A points-to set (`PointerIdPointsToSet`) is a set of
pointers. Adding a pointer with the unknown offset removes the known offsets of its target, and a
known offset is not added when the unknown one is there; the union of two sets keeps both.

`Covers S p`: the set holds the pointer or the unknown offset of its target. No operation of the
analysis takes coverage away. `Grows` says how a set may change (`grows_add`, `grows_union`); it
orders the sets, and every report of a change goes strictly up (`lt_add`, `lt_union`).
-/

set_option autoImplicit false

namespace Cape.PointerAnalysis

open Cape.Library

universe u

/-- A node of the graph or one of the three static nodes: targets and operands. -/
inductive PSNode (N : Type u) where
  | node (n : N)
  | nullptr
  | unknownMemory
  | invalidated
deriving DecidableEq, Repr

structure Pointer (N : Type u) where
  target : PSNode N
  offset : Offset
deriving DecidableEq, Repr

namespace Pointer

variable {N : Type u}

/-- `UnknownPointer`. -/
def unknownPointer : Pointer N := ⟨.unknownMemory, .unknown⟩

/-- `NullPointer`. -/
def nullPointer : Pointer N := ⟨.nullptr, 0⟩

/-- The same target at the unknown offset. -/
def widen (p : Pointer N) : Pointer N := ⟨p.target, .unknown⟩

theorem widen_eq_self {p : Pointer N} (h : p.offset = .unknown) : p.widen = p := by
  cases p
  cases h
  rfl

variable [DecidableEq N]

def isNull (p : Pointer N) : Bool := p.target = .nullptr

def isUnknown (p : Pointer N) : Bool := p.target = .unknownMemory

def isValid (p : Pointer N) : Bool := !p.isNull && !p.isUnknown

def isInvalidated (p : Pointer N) : Bool := p.target = .invalidated

end Pointer

/-- The pointers in the order in which they came. In the source the order is that of the pointers'
numbers; no result depends on it. -/
structure PointsToSet (N : Type u) where
  pointers : List (Pointer N)
  nodup : pointers.Nodup

namespace PointsToSet

variable {N : Type u}

instance : Membership (Pointer N) (PointsToSet N) := ⟨fun S p => p ∈ S.pointers⟩

theorem ext {S T : PointsToSet N} (h : S.pointers = T.pointers) : S = T := by
  cases S
  cases T
  cases h
  rfl

def empty : PointsToSet N := ⟨[], List.nodup_nil⟩

def singleton (p : Pointer N) : PointsToSet N := ⟨[p], List.nodup_singleton p⟩

def isEmpty (S : PointsToSet N) : Bool := S.pointers.isEmpty

@[simp] theorem mem_empty (q : Pointer N) : ¬ q ∈ (empty : PointsToSet N) := List.not_mem_nil

@[simp] theorem mem_singleton (p q : Pointer N) : q ∈ singleton p ↔ q = p := List.mem_singleton

/-! ## Coverage and growth -/

/-- The set holds the pointer, or its target at the unknown offset. -/
def Covers (S : PointsToSet N) (p : Pointer N) : Prop := p ∈ S ∨ p.widen ∈ S

/-- Nothing is lost but known offsets of targets whose unknown offset came in. -/
def Grows (S T : PointsToSet N) : Prop :=
  ∀ p ∈ S, p ∈ T ∨ (p.widen ∈ T ∧ p.widen ∉ S)

theorem Grows.refl (S : PointsToSet N) : Grows S S := fun _ hp => Or.inl hp

theorem Grows.widen_mem {S T : PointsToSet N} (h : Grows S T) {p : Pointer N} (hp : p.widen ∈ S) :
    p.widen ∈ T := by
  obtain hT | ⟨hT, -⟩ := h _ hp
  · exact hT
  · exact hT

theorem Grows.trans {S T U : PointsToSet N} (h : Grows S T) (h' : Grows T U) : Grows S U := by
  intro p hp
  obtain hT | ⟨hT, hS⟩ := h p hp
  · obtain hU | ⟨hU, hnot⟩ := h' p hT
    · exact Or.inl hU
    · exact Or.inr ⟨hU, fun hS => hnot (h.widen_mem hS)⟩
  · exact Or.inr ⟨h'.widen_mem hT, hS⟩

/-- Sets ordered by growth: the unknown offset of a target is above its known ones. -/
instance : Preorder (PointsToSet N) where
  le := Grows
  le_refl := Grows.refl
  le_trans := fun _ _ _ => Grows.trans

/-- Sets that grow into each other have the same pointers. -/
theorem Grows.mem_iff {S T : PointsToSet N} (h : Grows S T) (h' : Grows T S) (p : Pointer N) :
    p ∈ S ↔ p ∈ T := by
  have hkey : ∀ {S T : PointsToSet N}, Grows S T → Grows T S → p ∈ S → p ∈ T := by
    intro S T h h' hp
    obtain hT | ⟨hT, hnot⟩ := h p hp
    · exact hT
    · exact absurd (h'.widen_mem hT) hnot
  exact ⟨hkey h h', hkey h' h⟩

/-- A set that has grown by a new pointer has grown strictly. -/
theorem Grows.lt {S T : PointsToSet N} (h : Grows S T) {p : Pointer N} (hT : p ∈ T) (hS : p ∉ S) :
    S < T := by
  refine ⟨h, fun h' => ?_⟩
  exact hS ((h.mem_iff h' p).2 hT)

theorem Grows.covers {S T : PointsToSet N} (h : Grows S T) {p : Pointer N} (hp : S.Covers p) :
    T.Covers p := by
  obtain hp | hp := hp
  · obtain hT | ⟨hT, -⟩ := h p hp
    · exact Or.inl hT
    · exact Or.inr hT
  · exact Or.inr (h.widen_mem hp)

/-! ## The operations -/

variable [DecidableEq N]

instance : DecidableEq (PointsToSet N) := fun S T =>
  decidable_of_iff (S.pointers = T.pointers) ⟨ext, fun h => h ▸ rfl⟩

instance (p : Pointer N) (S : PointsToSet N) : Decidable (p ∈ S) :=
  inferInstanceAs (Decidable (p ∈ S.pointers))

def has (S : PointsToSet N) (p : Pointer N) : Bool := p ∈ S.pointers

def removeAny (S : PointsToSet N) (target : PSNode N) : PointsToSet N :=
  ⟨S.pointers.filter fun p => p.target ≠ target, S.nodup.filter _⟩

/-- `remove`: this pointer only. -/
def remove (S : PointsToSet N) (p : Pointer N) : PointsToSet N :=
  ⟨S.pointers.filter fun q => q ≠ p, S.nodup.filter _⟩

/-- Put a pointer in; the report says that it was not there. -/
def set (p : Pointer N) : Step (PointsToSet N) := fun S =>
  if h : p ∈ S.pointers then (S, false)
  else
    (⟨S.pointers ++ [p], List.nodup_append.2 ⟨S.nodup, List.nodup_singleton p,
      fun _ ha _ hb hab => h (List.mem_singleton.1 hb ▸ hab ▸ ha)⟩⟩, true)

def addWithUnknownOffset (target : PSNode N) : Step (PointsToSet N) := fun S =>
  set ⟨target, .unknown⟩ (S.removeAny target)

/-- Add one pointer. -/
def add (p : Pointer N) : Step (PointsToSet N) := fun S =>
  if S.has p.widen then (S, false)
  else if p.offset.isUnknown then addWithUnknownOffset p.target S
  else set p S

/-- The union with another set, bit by bit: nothing is normalised here. -/
def union (T : PointsToSet N) : Step (PointsToSet N) := fun S =>
  (⟨S.pointers ++ T.pointers.filter (· ∉ S.pointers), List.nodup_append.2 ⟨S.nodup, T.nodup.filter _,
      fun _ ha _ hb hab => of_decide_eq_true (List.mem_filter.1 hb).2 (hab ▸ ha)⟩⟩,
    T.pointers.any (· ∉ S.pointers))

def pointsToTarget (S : PointsToSet N) (target : PSNode N) : Bool :=
  S.pointers.any fun p => p.target = target

/-! ## What they do -/

theorem set_of_mem {p : Pointer N} {S : PointsToSet N} (h : p ∈ S) : set p S = (S, false) :=
  dif_pos h

theorem set_of_not_mem {p : Pointer N} {S : PointsToSet N} (h : p ∉ S) :
    (set p S).2 = true ∧ (set p S).1.pointers = S.pointers ++ [p] := by
  have h : ¬ p ∈ S.pointers := h
  unfold set
  rw [dif_neg h]
  exact ⟨rfl, rfl⟩

theorem mem_set (S : PointsToSet N) (p q : Pointer N) : q ∈ (set p S).1 ↔ q ∈ S ∨ q = p := by
  by_cases h : p ∈ S
  · rw [set_of_mem h]
    exact (or_iff_left_of_imp fun heq => heq ▸ h).symm
  · show q ∈ (set p S).1.pointers ↔ _
    rw [(set_of_not_mem h).2, List.mem_append, List.mem_singleton]
    exact Iff.rfl

theorem set_report (S : PointsToSet N) (p : Pointer N) : (set p S).2 = !S.has p := by
  by_cases h : p ∈ S
  · have hhas : S.has p = true := decide_eq_true h
    rw [set_of_mem h, hhas]
    rfl
  · have hhas : S.has p = false := decide_eq_false h
    rw [(set_of_not_mem h).1, hhas]
    rfl

theorem mem_removeAny (S : PointsToSet N) (t : PSNode N) (q : Pointer N) :
    q ∈ S.removeAny t ↔ q ∈ S ∧ q.target ≠ t := by
  show q ∈ S.pointers.filter _ ↔ q ∈ S.pointers ∧ _
  simp

theorem mem_remove (S : PointsToSet N) (p q : Pointer N) : q ∈ S.remove p ↔ q ∈ S ∧ q ≠ p := by
  show q ∈ S.pointers.filter _ ↔ q ∈ S.pointers ∧ _
  simp

theorem mem_union (S T : PointsToSet N) (q : Pointer N) : q ∈ (union T S).1 ↔ q ∈ S ∨ q ∈ T := by
  show q ∈ S.pointers ++ T.pointers.filter _ ↔ q ∈ S.pointers ∨ q ∈ T.pointers
  simp only [List.mem_append, List.mem_filter, decide_not, Bool.not_eq_eq_eq_not, Bool.not_true,
    decide_eq_false_iff_not]
  tauto

/-- **What adding a pointer does.** It is refused, or it takes the place of the known offsets, or it
is a new known offset. -/
theorem add_cases (p : Pointer N) (S : PointsToSet N) :
    (add p S = (S, false) ∧ S.Covers p) ∨
    ((add p S).2 = true ∧ p.widen = p ∧ p ∉ S ∧
      (add p S).1.pointers = (S.removeAny p.target).pointers ++ [p]) ∨
    ((add p S).2 = true ∧ p.offset ≠ .unknown ∧ p ∉ S ∧ p.widen ∉ S ∧
      (add p S).1.pointers = S.pointers ++ [p]) := by
  unfold add
  split
  · next h => exact Or.inl ⟨rfl, Or.inr (of_decide_eq_true h)⟩
  · next h =>
      have hwide : p.widen ∉ S := fun hmem => h (decide_eq_true hmem)
      split
      · next hoff =>
          have hoff : p.offset = .unknown := (Offset.isUnknown_iff _).1 hoff
          have hself : p.widen = p := Pointer.widen_eq_self hoff
          right
          left
          have hnot : p.widen ∉ S.removeAny p.target := fun hmem =>
            hwide ((mem_removeAny S p.target p.widen).1 hmem).1
          obtain ⟨hreport, hpointers⟩ := set_of_not_mem hnot
          have hfull : addWithUnknownOffset p.target S = set p.widen (S.removeAny p.target) := rfl
          rw [hfull]
          exact ⟨hreport, hself, hself ▸ hwide, hpointers.trans (by rw [hself])⟩
      · next hoff =>
          have hoff : p.offset ≠ .unknown := fun heq => hoff ((Offset.isUnknown_iff _).2 heq)
          by_cases hmem : p ∈ S
          · exact Or.inl ⟨set_of_mem hmem, Or.inl hmem⟩
          · obtain ⟨hreport, hpointers⟩ := set_of_not_mem hmem
            exact Or.inr (Or.inr ⟨hreport, hoff, hmem, hwide, hpointers⟩)

theorem add_of_report {p : Pointer N} {S : PointsToSet N} (h : (add p S).2 = false) :
    (add p S).1 = S := by
  obtain ⟨heq, -⟩ | ⟨htrue, -⟩ | ⟨htrue, -⟩ := add_cases p S
  · rw [heq]
  · simp [h] at htrue
  · simp [h] at htrue

theorem union_of_report {S T : PointsToSet N} (h : (union T S).2 = false) : (union T S).1 = S := by
  apply ext
  have hall : ∀ q ∈ T.pointers, q ∈ S.pointers := by simpa [union] using h
  have hnil : T.pointers.filter (· ∉ S.pointers) = [] := by
    rw [List.filter_eq_nil_iff]
    intro q hq
    simp [hall q hq]
  show S.pointers ++ T.pointers.filter (· ∉ S.pointers) = S.pointers
  rw [hnil, List.append_nil]

theorem grows_add (p : Pointer N) (S : PointsToSet N) : Grows S (add p S).1 := by
  obtain ⟨heq, -⟩ | ⟨-, hself, hnot, heq⟩ | ⟨-, -, -, -, heq⟩ := add_cases p S
  · rw [heq]
    exact .refl S
  · intro q hq
    show q ∈ (add p S).1.pointers ∨ (q.widen ∈ (add p S).1.pointers ∧ _)
    rw [heq]
    by_cases ht : q.target = p.target
    · have hwide : q.widen = p := by
        rw [← hself]
        simp [Pointer.widen, ht]
      right
      rw [hwide]
      exact ⟨List.mem_append_right _ (List.mem_singleton_self p), hnot⟩
    · left
      exact List.mem_append_left _ ((mem_removeAny S p.target q).2 ⟨hq, ht⟩)
  · intro q hq
    left
    show q ∈ (add p S).1.pointers
    rw [heq]
    exact List.mem_append_left _ hq

theorem covers_add (p : Pointer N) (S : PointsToSet N) : (add p S).1.Covers p := by
  obtain ⟨heq, hcov⟩ | ⟨-, -, -, heq⟩ | ⟨-, -, -, -, heq⟩ := add_cases p S
  · rw [heq]
    exact hcov
  · left
    show p ∈ (add p S).1.pointers
    rw [heq]
    exact List.mem_append_right _ (List.mem_singleton_self p)
  · left
    show p ∈ (add p S).1.pointers
    rw [heq]
    exact List.mem_append_right _ (List.mem_singleton_self p)

theorem grows_union (S T : PointsToSet N) : Grows S (union T S).1 :=
  fun p hp => Or.inl ((mem_union S T p).2 (Or.inl hp))

theorem covers_union (S : PointsToSet N) {T : PointsToSet N} {p : Pointer N} (h : T.Covers p) :
    (union T S).1.Covers p :=
  h.imp (fun hp => (mem_union S T p).2 (Or.inr hp)) (fun hp => (mem_union S T _).2 (Or.inr hp))

theorem mem_of_add {p q : Pointer N} {S : PointsToSet N} (h : q ∈ (add p S).1) : q ∈ S ∨ q = p := by
  obtain ⟨heq, -⟩ | ⟨-, -, -, heq⟩ | ⟨-, -, -, -, heq⟩ := add_cases p S
  · rw [heq] at h
    exact Or.inl h
  · have h : q ∈ (add p S).1.pointers := h
    rw [heq] at h
    obtain h | h := List.mem_append.1 h
    · exact Or.inl ((mem_removeAny S p.target q).1 h).1
    · exact Or.inr (List.mem_singleton.1 h)
  · have h : q ∈ (add p S).1.pointers := h
    rw [heq] at h
    exact (List.mem_append.1 h).imp_right List.mem_singleton.1

theorem add_report_iff {p : Pointer N} {S : PointsToSet N} :
    (add p S).2 = false ↔ S.Covers p := by
  obtain ⟨heq, hcov⟩ | ⟨htrue, hself, hnot, -⟩ | ⟨htrue, -, hnot, hwide, -⟩ := add_cases p S
  · rw [heq]
    exact ⟨fun _ => hcov, fun _ => rfl⟩
  · have hcov : ¬ S.Covers p := fun hcov => hcov.elim hnot (hself ▸ hnot)
    simp [htrue, hcov]
  · have hcov : ¬ S.Covers p := fun hcov => hcov.elim hnot hwide
    simp [htrue, hcov]

theorem union_report_iff {S T : PointsToSet N} : (union T S).2 = false ↔ ∀ p ∈ T, p ∈ S := by
  show T.pointers.any _ = false ↔ ∀ p ∈ T.pointers, p ∈ S.pointers
  simp

theorem union_report_eq_true_iff {S T : PointsToSet N} :
    (union T S).2 = true ↔ ∃ p ∈ T, p ∉ S := by
  show T.pointers.any _ = true ↔ ∃ p ∈ T.pointers, p ∉ S.pointers
  simp

/-- The first pointers of a set are a change. -/
theorem union_empty_report {T : PointsToSet N} (h : ¬ T.isEmpty = true) :
    (union T .empty).2 = true := by
  cases hreport : (union T .empty).2 with
  | true => rfl
  | false =>
      have hnone := union_report_iff.1 hreport
      have hnil : T.pointers = [] :=
        List.eq_nil_iff_forall_not_mem.2 fun p hp => mem_empty p (hnone p hp)
      exact absurd (List.isEmpty_iff.2 hnil) h

theorem mem_add_of_report {p : Pointer N} {S : PointsToSet N} (h : (add p S).2 = true) :
    p ∈ (add p S).1 ∧ p ∉ S := by
  obtain ⟨heq, -⟩ | ⟨-, -, hnot, heq⟩ | ⟨-, -, hnot, -, heq⟩ := add_cases p S
  · rw [heq] at h
    cases h
  · refine ⟨?_, hnot⟩
    show p ∈ (add p S).1.pointers
    rw [heq]
    exact List.mem_append_right _ (List.mem_singleton_self p)
  · refine ⟨?_, hnot⟩
    show p ∈ (add p S).1.pointers
    rw [heq]
    exact List.mem_append_right _ (List.mem_singleton_self p)

/-- **A reported addition is a strict growth.** -/
theorem lt_add {p : Pointer N} {S : PointsToSet N} (h : (add p S).2 = true) : S < (add p S).1 :=
  (grows_add p S).lt (mem_add_of_report h).1 (mem_add_of_report h).2

/-- **A reported union is a strict growth.** -/
theorem lt_union {S T : PointsToSet N} (h : (union T S).2 = true) : S < (union T S).1 := by
  obtain ⟨p, hp, hnot⟩ := List.any_eq_true.1 h
  exact (grows_union S T).lt ((mem_union S T p).2 (Or.inr hp)) (of_decide_eq_true hnot)

instance [Finite N] : Finite (PSNode N) :=
  Finite.of_injective
    (fun x : PSNode N => match x with
      | .node n => some (some (some n))
      | .nullptr => some (some none)
      | .unknownMemory => some none
      | .invalidated => none)
    (by rintro (a | _ | _ | _) (b | _ | _ | _) h <;> simp_all)

instance [Finite N] : Finite (Pointer N) :=
  Finite.of_injective (fun p : Pointer N => (p.target, p.offset)) (by
    rintro ⟨t, o⟩ ⟨t', o'⟩ h
    obtain ⟨rfl, rfl⟩ := Prod.mk.inj h
    rfl)

instance [Finite N] : Finite (PointsToSet N) := by
  have := Fintype.ofFinite (Pointer N)
  exact Finite.of_injective (fun S : PointsToSet N => (⟨S.pointers, S.nodup⟩ : {l // l.Nodup}))
    (fun S T h => ext (congrArg Subtype.val h))

end PointsToSet

end Cape.PointerAnalysis
