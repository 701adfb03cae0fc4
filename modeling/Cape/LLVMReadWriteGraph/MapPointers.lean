import Cape.MemorySSA.ReadWriteGraph
import Cape.PointerAnalysis.PointsToSet

/-!
# From points-to sets to def-sites

The builder of the read/write graph asks for the points-to set of an operand and translates the
pointers in it: each is a def-site on the node of its target. The iterator of the set leaves out the
unknown pointer, null and invalidated memory, and functions are skipped.

`Annotations.MayDefines`, `Overwrites` and `Uses` say which bytes a node touches.
-/

set_option autoImplicit false

namespace Cape.LLVMReadWriteGraph

open Cape.MemorySSA Cape.PointerAnalysis

universe u v w

/-- `RWNodeType`. -/
inductive RWNodeType where
  | none | alloc | dynAlloc | global | store | load | phi | inarg | outarg | callin | callout | mu
  | ret | call | fork | join | generic | noop
deriving DecidableEq, Repr

/-- What the builder asks about the class of an LLVM value. -/
inductive ValueKind where
  | function | globalVariable | allocaInst | callInst | other
deriving DecidableEq, Repr

/-- What the builder has and can build: nodes for values, and their types. -/
structure Builder (V : Type u) (R : Type w) where
  kind : V → ValueKind
  getNode : V → Option R
  /-- the representant of the built nodes, if there are any -/
  buildNode : V → Option R
  getType : R → RWNodeType
  /-- the undefined functions among the callees of a call node -/
  calledValues : R → List R
  /-- `createNode`: only calls make heap objects and call nodes -/
  type_ne : ∀ v n, kind v ≠ .callInst → (getNode v = some n ∨ buildNode v = some n) →
    getType n ≠ .dynAlloc ∧ getType n ≠ .call

/-- `LLVMPointer`: an allocation site and an offset into its memory. -/
structure LLVMPointer (V : Type u) where
  value : V
  offset : Offset
deriving DecidableEq, Repr

section PointsTo

variable {V : Type u} {N : Type v}

def hasUnknown [DecidableEq N] (S : PointsToSet N) : Bool := S.pointers.any Pointer.isUnknown

variable (getUserData : N → V)

/-- The pointers that the iterator of `DGLLVMPointsToSet` stops at. -/
def iterate (S : PointsToSet N) : List (LLVMPointer V) :=
  S.pointers.filterMap fun p =>
    match p.target with
    | .node n => some ⟨getUserData n, p.offset⟩
    | _ => none

/-- `getLLVMPointsToChecked`: is there a points-to set, and the set; it is {unknown} if not. -/
def getLLVMPointsToChecked (pointsTo : Option (PointsToSet N)) : Bool × PointsToSet N :=
  match pointsTo with
  | some S => if S.isEmpty then (false, .singleton ⟨.unknownMemory, 0⟩) else (true, S)
  | none => (false, .singleton ⟨.unknownMemory, 0⟩)

/-- The set has this element and no other. -/
def IsExactly (S : PointsToSet N) (ptr : LLVMPointer V) : Prop :=
  S.pointers.length = 1 ∧ iterate getUserData S = [ptr]

end PointsTo

/-! ## Nodes and their annotations -/

section Nodes

variable {V : Type u} {R : Type w} (B : Builder V R)

/-- `getOperand`; `none` for `abort`. -/
def getOperand (val : V) : Option R :=
  match B.getNode val with
  | some op => some op
  | none =>
      -- allocations may not have been created yet
      if B.kind val = .allocaInst ∨ B.kind val = .callInst then B.buildNode val else none

def isAlloc (n : R) : Bool := B.getType n = .alloc

def isGlobal (n : R) : Bool := B.getType n = .global

def isDynAlloc (n : R) : Bool :=
  B.getType n = .dynAlloc ||
    (B.getType n = .call && (B.calledValues n).any fun val => B.getType val = .dynAlloc)

variable {B}

theorem not_isDynAlloc_of_local {n : R} (h : isAlloc B n = true ∨ isGlobal B n = true) :
    isDynAlloc B n = false := by
  rw [isAlloc, isGlobal] at h
  rw [decide_eq_true_iff, decide_eq_true_iff] at h
  rw [isDynAlloc]
  obtain h | h := h <;> simp [h]

end Nodes

/-- A builder with the single local variable `()`. -/
def oneVariable : Builder Unit Unit where
  kind := fun _ => .allocaInst
  getNode := some
  buildNode := some
  getType := fun _ => .alloc
  calledValues := fun _ => []
  type_ne := fun _ _ _ _ => ⟨nofun, nofun⟩

section Touched

variable {R : Type w}

/-- `Annotations`. -/
structure Annotations (R : Type w) where
  defs : Finset (DefSite R)
  overwrites : Finset (DefSite R)
  uses : Finset (DefSite R)
deriving DecidableEq

/-- The def-site is about this byte. -/
def Covers (ds : DefSite R) (n : R) (b : Offset) : Prop :=
  ds.target = .node n ∧ b ∈ ds.getInterval

namespace Annotations

def empty : Annotations R := ⟨∅, ∅, ∅⟩

section Add

variable [DecidableEq R] (a : Annotations R)

/-- `addDef`. -/
def addDef (ds : DefSite R) (strongUpdate : Bool) : Annotations R :=
  if strongUpdate then { a with overwrites := insert ds a.overwrites }
  else { a with defs := insert ds a.defs }

/-- `addUse`. -/
def addUse (ds : DefSite R) : Annotations R := { a with uses := insert ds a.uses }

@[simp] theorem mem_defs_addDef (ds ds' : DefSite R) (s : Bool) :
    ds' ∈ (a.addDef ds s).defs ↔ (ds' = ds ∧ s = false) ∨ ds' ∈ a.defs := by
  cases s <;> simp [addDef]

@[simp] theorem mem_overwrites_addDef (ds ds' : DefSite R) (s : Bool) :
    ds' ∈ (a.addDef ds s).overwrites ↔ (ds' = ds ∧ s = true) ∨ ds' ∈ a.overwrites := by
  cases s <;> simp [addDef]

@[simp] theorem uses_addDef (ds : DefSite R) (s : Bool) : (a.addDef ds s).uses = a.uses := by
  cases s <;> rfl

@[simp] theorem mem_uses_addUse (ds ds' : DefSite R) :
    ds' ∈ (a.addUse ds).uses ↔ ds' = ds ∨ ds' ∈ a.uses :=
  Finset.mem_insert

@[simp] theorem defs_addUse (ds : DefSite R) : (a.addUse ds).defs = a.defs := rfl

@[simp] theorem overwrites_addUse (ds : DefSite R) : (a.addUse ds).overwrites = a.overwrites := rfl

end Add

variable (a : Annotations R)

/-- The node may define the byte. -/
def MayDefines (n : R) (b : Offset) : Prop :=
  ∃ ds, (ds ∈ a.defs ∨ ds ∈ a.overwrites) ∧ Covers ds n b

/-- The node may define any memory. -/
def MayDefinesUnknown : Prop := ∃ ds, (ds ∈ a.defs ∨ ds ∈ a.overwrites) ∧ ds.target = .unknown

/-- The node overwrites the byte. -/
def Overwrites (n : R) (b : Offset) : Prop := ∃ ds ∈ a.overwrites, Covers ds n b

/-- The node may use the byte. -/
def Uses (n : R) (b : Offset) : Prop := ∃ ds ∈ a.uses, Covers ds n b

/-- The node may use any memory. -/
def UsesUnknown : Prop := ∃ ds ∈ a.uses, ds.target = .unknown

end Annotations

/-- `b` is in `[offset, offset + len)`. Of an unknown offset it may be, and an unknown length ends
nowhere. -/
def InRange (offset len b : Offset) : Prop :=
  offset = .unknown ∨
    (offset ≤ b ∧ (len = .unknown ∨ b.toNat < offset.toNat + len.toNat))

theorem mem_interval_of_inRange {t : Memory R} {offset len b : Offset}
    (h : InRange offset len b) :
    b ∈ (DefSite.mk t offset (if offset.isUnknown then .unknown else len)).getInterval := by
  rw [DiscreteInterval.mem_iff]
  rw [DefSite.getInterval]
  obtain rfl | ⟨hlo, hhi⟩ := h
  · have := b.toNat_lt
    simp only [Offset.isUnknown_unknown, if_true, Offset.toNat_zero, Offset.toNat_unknown]
    omega
  · have hb := b.toNat_lt
    rw [Offset.le_iff] at hlo
    by_cases hoff : offset.isUnknown = true
    · simp only [hoff, if_true, Offset.toNat_zero, Offset.toNat_unknown]
      omega
    · simp only [hoff, Bool.false_eq_true, if_false, Offset.toNat_add]
      refine ⟨hlo, ?_⟩
      obtain rfl | hhi := hhi
      · rw [Offset.unknown_sub, Offset.toNat_unknown]
        omega
      · by_cases hlen : len = .unknown
        · rw [hlen, Offset.unknown_sub, Offset.toNat_unknown]
          omega
        · rw [Offset.toNat_sub_one (Offset.ne_unknown_iff.1 hlen) (by omega)]
          omega

end Touched

/-! ## The translation -/

/-- A loop that gives one result for each member. -/
theorem forall₂_of_mapM {α : Type u} {β : Type v} {f : α → Option β} {l : List α} {l' : List β}
    (h : l.mapM f = some l') : List.Forall₂ (fun a b => f a = some b) l l' := by
  induction l generalizing l' with
  | nil =>
      obtain rfl := Option.some.inj h
      exact .nil
  | cons a l ih =>
      rw [List.mapM_cons] at h
      obtain ⟨b, hb, h⟩ := Option.bind_eq_some_iff.1 h
      obtain ⟨bs, hbs, h⟩ := Option.bind_eq_some_iff.1 h
      obtain rfl := Option.some.inj h
      exact .cons hb (ih hbs)

theorem exists_of_mem_right {α : Type u} {β : Type v} {P : α → β → Prop} {l : List α} {l' : List β}
    (h : List.Forall₂ P l l') {b : β} (hb : b ∈ l') : ∃ a ∈ l, P a b := by
  induction h with
  | nil => exact absurd hb List.not_mem_nil
  | @cons a b' l l' hP _ ih =>
      obtain rfl | hb := List.mem_cons.1 hb
      · exact ⟨a, List.mem_cons_self, hP⟩
      · obtain ⟨c, hc, hPc⟩ := ih hb
        exact ⟨c, List.mem_cons_of_mem a hc, hPc⟩

theorem exists_of_mem_left {α : Type u} {β : Type v} {P : α → β → Prop} {l : List α} {l' : List β}
    (h : List.Forall₂ P l l') {a : α} (ha : a ∈ l) : ∃ b ∈ l', P a b :=
  exists_of_mem_right h.flip ha

section Map

variable {V : Type u} {N : Type v} {R : Type w} (B : Builder V R) (getUserData : N → V)

/-- The pointers to memory: the iterator without functions. -/
def targets (S : PointsToSet N) : List (LLVMPointer V) :=
  (iterate getUserData S).filter fun ptr => B.kind ptr.value ≠ .function

/-- The def-site of a pointer. The old code relies on the length being unknown when the offset is. -/
def toDefSite (size : Offset) (ptr : LLVMPointer V) : Option (DefSite R) :=
  (getOperand B ptr.value).map fun ptrNode =>
    ⟨.node ptrNode, ptr.offset, if ptr.offset.isUnknown then .unknown else size⟩

/-- `mapPointers`; `none` when a target has no node, where the program aborts. For a missing set and
for the unknown pointer nothing is added. -/
def mapPointers (pointsTo : Option (PointsToSet N)) (size : Offset) : Option (List (DefSite R)) :=
  let psn := getLLVMPointsToChecked pointsTo
  if !psn.1 then some []
  else if psn.2.isEmpty then some []
  else (targets B getUserData psn.2).mapM (toDefSite B size)

variable {B getUserData}

/-- The set that is asked for: {unknown} when there is none. -/
def pointsToSet (pointsTo : Option (PointsToSet N)) : PointsToSet N :=
  (getLLVMPointsToChecked pointsTo).2

theorem mapPointers_eq (pointsTo : Option (PointsToSet N)) (size : Offset) :
    mapPointers B getUserData pointsTo size =
      (targets B getUserData (pointsToSet pointsTo)).mapM (toDefSite B size) := by
  cases pointsTo with
  | none => rfl
  | some S =>
      rw [mapPointers, pointsToSet, getLLVMPointsToChecked]
      by_cases hS : S.isEmpty = true
      · simp only [hS, if_true]
        rfl
      · simp [hS]

/-- A target that is the only element of the set. -/
theorem isExactly_of_mem_targets {S : PointsToSet N} {ptr : LLVMPointer V}
    (hptr : ptr ∈ targets B getUserData S) (hlen : S.pointers.length = 1) :
    IsExactly getUserData S ptr := by
  have hin : ptr ∈ iterate getUserData S := (List.mem_filter.1 hptr).1
  have hiter : (iterate getUserData S).length ≤ 1 := hlen ▸ List.length_filterMap_le _ _
  obtain ⟨a, ha⟩ := List.length_eq_one_iff.1 (Nat.le_antisymm hiter (List.length_pos_of_mem hin))
  refine ⟨hlen, ?_⟩
  rw [ha] at hin ⊢
  rw [List.mem_singleton.1 hin]

theorem IsExactly.eq {S : PointsToSet N} {ptr ptr' : LLVMPointer V}
    (h : IsExactly getUserData S ptr) (hptr : ptr' ∈ targets B getUserData S) : ptr' = ptr := by
  have hin : ptr' ∈ iterate getUserData S := (List.mem_filter.1 hptr).1
  rw [h.2] at hin
  exact List.mem_singleton.1 hin

theorem IsExactly.mem_targets {S : PointsToSet N} {ptr : LLVMPointer V}
    (h : IsExactly getUserData S ptr) (hkind : B.kind ptr.value ≠ .function) :
    ptr ∈ targets B getUserData S := by
  refine List.mem_filter.2 ⟨?_, decide_eq_true hkind⟩
  rw [h.2]
  exact List.mem_singleton_self ptr

theorem toDefSite_eq_some {size : Offset} {ptr : LLVMPointer V} {ds : DefSite R} :
    toDefSite B size ptr = some ds ↔ ∃ n, getOperand B ptr.value = some n ∧
      ds = ⟨.node n, ptr.offset, if ptr.offset.isUnknown then .unknown else size⟩ := by
  rw [toDefSite]
  rw [Option.map_eq_some_iff]
  exact exists_congr fun n => and_congr_right fun _ => eq_comm

/-- The def-site of a pointer covers the bytes that are accessed through it. -/
theorem covers_of_toDefSite {size : Offset} {ptr : LLVMPointer V} {ds : DefSite R}
    (h : toDefSite B size ptr = some ds) : ∃ n, getOperand B ptr.value = some n ∧
      ∀ b, InRange ptr.offset size b → Covers ds n b := by
  obtain ⟨n, hn, rfl⟩ := toDefSite_eq_some.1 h
  exact ⟨n, hn, fun b hb => ⟨rfl, mem_interval_of_inRange hb⟩⟩

end Map

end Cape.LLVMReadWriteGraph
