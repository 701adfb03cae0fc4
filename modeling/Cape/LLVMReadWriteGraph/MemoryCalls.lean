import Cape.Library.FallibleLoop
import Cape.LLVMReadWriteGraph.MapPointers

/-!
# Calls that copy and set memory

`createIntrinsicCall` for `memcpy`, `memmove` and `memset`, and `funcFromModel` for functions with a
model: for an operand, the model says from where to where its memory is defined or used. Both give
`addDef` the end of the range in place of its length, so that a strong update at a later offset
overwrites bytes behind the range. An intrinsic call uses nothing, and its length is shared by the
rounds of the loop over the targets.

`createCall_right_iff`: exactly when the node says what the call may and must access.
-/

set_option autoImplicit false

namespace Cape.LLVMReadWriteGraph

open Cape.MemorySSA Cape.PointerAnalysis

universe u v w

variable {V : Type u} {N : Type v} {R : Type w}

/-! ## Calls -/

/-- An operand of a call: its points-to set and, of a constant, its value (`getLimitedValue`). -/
structure Arg (N : Type v) where
  pointsTo : Option (PointsToSet N)
  constant : Option Offset

/-- `getConstantValue`: the unknown offset when the operand is not constant. -/
def getConstantValue (op : Arg N) : Offset := op.constant.getD .unknown

structure CallInst (N : Type v) where
  getNumArgOperands : Nat
  getArgOperand : Nat → Arg N

/-- The intrinsics of `createIntrinsicCall` that access memory. -/
inductive IntrinsicID where
  | memmove | memcpy | memset
deriving DecidableEq, Repr

/-- `FunctionModel::OperandValue`. -/
inductive OperandValue where
  | offset (o : Offset)
  | operand (i : Nat)

/-- `FunctionModel::Operand`: the range from the one offset to the other. -/
structure Operand where
  lower : OperandValue
  upper : OperandValue

/-- `FunctionModel`: for each operand, the range that is defined and the one that is used. -/
structure FunctionModel where
  defines : Nat → Option Operand
  uses : Nat → Option Operand

/-- `handles`. -/
def FunctionModel.handles (model : FunctionModel) (i : Nat) : Bool :=
  (model.defines i).isSome || (model.uses i).isSome

/-- What `createCallToFunctions` calls: a function with a model, or else an intrinsic. -/
inductive Called where
  | model (m : FunctionModel)
  | intrinsic (id : IntrinsicID)

section Code

variable [DecidableEq R] (B : Builder V R) (getUserData : N → V)

/-- The end of the range, unless it overflows. -/
def endOf (start len : Offset) : Offset :=
  if len.offset < Offset.unknown.offset - start.offset then start + len else .unknown

/-- The loop of `createIntrinsicCall` over the targets. The length becomes unknown in the first
round with an unknown offset, and stays so. -/
def defineTargets : List (LLVMPointer V) → Offset → Annotations R → Option (Annotations R)
  | [], _, ret => some ret
  | ptr :: rest, len, ret =>
      let len := if ptr.offset.isUnknown then .unknown else len
      let stop := endOf ptr.offset len
      match getOperand B ptr.value with
      | some target =>
          defineTargets rest len
            (ret.addDef ⟨.node target, ptr.offset, stop⟩
              (!ptr.offset.isUnknown && !stop.isUnknown))
      | none => none

/-- `createIntrinsicCall`: the annotations of the node. All three have the destination at 0 and the
length at 2. -/
def createIntrinsicCall (_ : IntrinsicID) (CInst : CallInst N) : Option (Annotations R) :=
  let dest := CInst.getArgOperand 0
  let lenVal := CInst.getArgOperand 2
  -- without a points-to set this goes on, with {unknown}
  let pts := (getLLVMPointsToChecked dest.pointsTo).2
  defineTargets B (targets B getUserData pts) (getConstantValue lenVal) .empty

/-- A bound of the range, of the call. -/
def OperandValue.get (CInst : CallInst N) : OperandValue → Offset
  | .offset o => o
  | .operand i => getConstantValue (CInst.getArgOperand i)

/-- `getFromTo`. -/
def getFromTo (CInst : CallInst N) (what : Operand) : Offset × Offset :=
  (what.lower.get CInst, what.upper.get CInst)

/-- One round of the inner loop of `funcFromModel`. -/
def accessTarget (model : FunctionModel) (CInst : CallInst N) (i : Nat) (single : Bool)
    (node : Annotations R) (ptr : LLVMPointer V) : Option (Annotations R) :=
  (getOperand B ptr.value).map fun target =>
    let node :=
      match model.defines i with
      | some defines =>
          let (lower, upper) := getFromTo CInst defines
          let strong_updt := single && !ptr.offset.isUnknown && !(ptr.offset + lower).isUnknown &&
            !(ptr.offset + upper).isUnknown && B.kind ptr.value ≠ .callInst
          node.addDef ⟨.node target, ptr.offset + lower, ptr.offset + upper⟩ strong_updt
      | none => node
    match model.uses i with
    | some uses =>
        let (lower, upper) := getFromTo CInst uses
        node.addUse ⟨.node target, ptr.offset + lower, ptr.offset + upper⟩
    | none => node

/-- One operand in `funcFromModel`. -/
def accessOperand (model : FunctionModel) (CInst : CallInst N) (node : Annotations R) (i : Nat) :
    Option (Annotations R) :=
  if !model.handles i then some node
  else
    let pts := getLLVMPointsToChecked (CInst.getArgOperand i).pointsTo
    if !pts.1 then some node
    else (targets B getUserData pts.2).foldlM
      (accessTarget B model CInst i (pts.2.pointers.length = 1)) node

/-- `funcFromModel`: the annotations of the node. -/
def funcFromModel (model : FunctionModel) (CInst : CallInst N) : Option (Annotations R) :=
  (List.range CInst.getNumArgOperands).foldlM (accessOperand B getUserData model CInst) .empty

/-- The node for a call of one undefined function. -/
def createCall (CInst : CallInst N) : Called → Option (Annotations R)
  | .model m => funcFromModel B getUserData m CInst
  | .intrinsic id => createIntrinsicCall B getUserData id CInst

end Code

/-! ## What the call accesses -/

/-- The call accesses the bytes from `lower` up to before `upper` behind each pointer of a set. -/
structure Access (N : Type v) where
  set : PointsToSet N
  lower : Offset
  upper : Offset

namespace Access

def NonEmpty (acc : Access N) : Prop :=
  acc.lower = .unknown ∨ acc.upper = .unknown ∨ acc.lower < acc.upper

/-- The byte is in the range behind the offset, as far as the offset and the bounds are known. -/
def Has (acc : Access N) (offset b : Offset) : Prop :=
  acc.NonEmpty ∧ (offset = .unknown ∨
    ((acc.lower = .unknown ∨ offset.toNat + acc.lower.toNat ≤ b.toNat) ∧
      (acc.upper = .unknown ∨ b.toNat < offset.toNat + acc.upper.toNat)))

end Access

/-- The range that an operand of a model has in the call. -/
def Operand.access (CInst : CallInst N) (i : Nat) (op : Operand) : Access N :=
  ⟨pointsToSet (CInst.getArgOperand i).pointsTo, (getFromTo CInst op).1, (getFromTo CInst op).2⟩

/-- Of an operand of an intrinsic call, as many bytes as its length says. -/
def CallInst.wholeAccess (CInst : CallInst N) (i : Nat) : Access N :=
  ⟨pointsToSet (CInst.getArgOperand i).pointsTo, 0, getConstantValue (CInst.getArgOperand 2)⟩

/-- The memory that a call writes. -/
def writes (CInst : CallInst N) : Called → List (Access N)
  | .model m => (List.range CInst.getNumArgOperands).filterMap fun i =>
      (m.defines i).map (Operand.access CInst i)
  | .intrinsic _ => [CInst.wholeAccess 0]

/-- The memory that a call reads. -/
def reads (CInst : CallInst N) : Called → List (Access N)
  | .model m => (List.range CInst.getNumArgOperands).filterMap fun i =>
      (m.uses i).map (Operand.access CInst i)
  | .intrinsic .memset => []
  | .intrinsic _ => [CInst.wholeAccess 1]

section Right

variable (B : Builder V R) (getUserData : N → V)

/-- The range is behind one pointer, to a known offset of memory that is not on the heap. -/
structure Sure (acc : Access N) (ptr : LLVMPointer V) (n : R) : Prop where
  exact : IsExactly getUserData acc.set ptr
  offset : ptr.offset ≠ .unknown
  lower : acc.lower ≠ .unknown
  upper : acc.upper ≠ .unknown
  target : getOperand B ptr.value = some n
  heap : isDynAlloc B n = false

/-- What the node of a call is to say about what the call writes and reads. -/
structure CallRight [DecidableEq N] (writes reads : List (Access N)) (node : Annotations R) :
    Prop where
  defines : ∀ acc ∈ writes, ∀ ptr ∈ targets B getUserData acc.set, ∀ b, acc.Has ptr.offset b →
    ∃ n, getOperand B ptr.value = some n ∧ node.MayDefines n b
  definesUnknown : ∀ acc ∈ writes, acc.NonEmpty → hasUnknown acc.set = true →
    node.MayDefinesUnknown
  uses : ∀ acc ∈ reads, ∀ ptr ∈ targets B getUserData acc.set, ∀ b, acc.Has ptr.offset b →
    ∃ n, getOperand B ptr.value = some n ∧ node.Uses n b
  usesUnknown : ∀ acc ∈ reads, acc.NonEmpty → hasUnknown acc.set = true → node.UsesUnknown
  overwrites : ∀ ds ∈ node.overwrites, ∃ acc ∈ writes, ∃ ptr n, Sure B getUserData acc ptr n ∧
    ds.target = .node n ∧ ∀ b ∈ ds.getInterval, acc.Has ptr.offset b

end Right

/-- The def-site of bytes from `start` on, `len` many of them, ends before the range does. -/
def Inside (acc : Access N) (offset start len : Offset) : Prop :=
  offset.toNat + acc.lower.toNat ≤ start.toNat ∧
    (start + (len - 1)).toNat < offset.toNat + acc.upper.toNat

/-- The unknown pointer is in no set behind which memory is accessed. -/
def AllKnown [DecidableEq N] (accesses : List (Access N)) : Prop :=
  ∀ acc ∈ accesses, acc.NonEmpty → hasUnknown acc.set = false

section Condition

variable (B : Builder V R) (getUserData : N → V)

/-- Before the first target at an unknown offset, a target whose range does not overflow is the only
element of the set, at offset 0 of memory that is not on the heap, and the length is not 0. -/
def DestinationSure (CInst : CallInst N) : Prop :=
  ∀ pre ptr post, targets B getUserData (CInst.wholeAccess 0).set = pre ++ ptr :: post →
    (∀ q ∈ pre ++ [ptr], q.offset ≠ .unknown) →
    endOf ptr.offset (CInst.wholeAccess 0).upper ≠ .unknown →
    ptr.offset = 0 ∧ (CInst.wholeAccess 0).upper ≠ 0 ∧
      ∃ n, Sure B getUserData (CInst.wholeAccess 0) ptr n

/-- Where an operand is a single known location, the bytes from `offset + lower` on, `offset + upper`
many, are in a range that the call writes for sure. -/
def OperandsSure (m : FunctionModel) (CInst : CallInst N) : Prop :=
  ∀ i < CInst.getNumArgOperands, ∀ op, m.defines i = some op → ∀ ptr n,
    IsExactly getUserData (op.access CInst i).set ptr → B.kind ptr.value ≠ .function →
    B.kind ptr.value ≠ .callInst → getOperand B ptr.value = some n → ptr.offset ≠ .unknown →
    ptr.offset + (op.access CInst i).lower ≠ .unknown →
    ptr.offset + (op.access CInst i).upper ≠ .unknown →
    ∃ acc ∈ writes CInst (.model m), ∃ ptr', Sure B getUserData acc ptr' n ∧
      Inside acc ptr'.offset (ptr.offset + (op.access CInst i).lower)
        (ptr.offset + (op.access CInst i).upper)

/-- When the node of a call is right. -/
def Exact [DecidableEq N] (CInst : CallInst N) : Called → Prop
  | .model m => AllKnown (writes CInst (.model m)) ∧ AllKnown (reads CInst (.model m)) ∧
      OperandsSure B getUserData m CInst
  | .intrinsic id => AllKnown (writes CInst (.intrinsic id)) ∧
      DestinationSure B getUserData CInst ∧
      ∀ acc ∈ reads CInst (.intrinsic id), acc.NonEmpty →
        targets B getUserData acc.set = [] ∧ hasUnknown acc.set = false

end Condition

/-! ## Ranges -/

/-- No overflow is the guard of the sum. -/
theorem endOf_eq (start len : Offset) :
    endOf start len = if start.toNat + len.toNat < 2 ^ 64 - 1 then start + len else .unknown := by
  have hs : start.toNat < 2 ^ 64 := start.toNat_lt
  have hstart : start.offset.toNat = start.toNat := rfl
  have hsub : (Offset.unknown.offset - start.offset).toNat = 2 ^ 64 - 1 - start.toNat := by
    rw [BitVec.toNat_sub]
    have h : Offset.unknown.offset.toNat = 2 ^ 64 - 1 := rfl
    rw [h, hstart]
    omega
  rw [endOf]
  refine if_congr ?_ rfl rfl
  rw [BitVec.lt_def, hsub]
  have hlen : len.offset.toNat = len.toNat := rfl
  rw [hlen]
  omega

theorem toNat_endOf {start len : Offset} (h : endOf start len ≠ .unknown) :
    (endOf start len).toNat = start.toNat + len.toNat := by
  rw [endOf_eq] at h ⊢
  split at h
  · next hlt =>
      rw [if_pos hlt, Offset.toNat_add]
      omega
  · exact absurd rfl h

theorem endOf_unknown_right (start : Offset) : endOf start .unknown = .unknown := by
  rw [endOf_eq, if_neg]
  rw [Offset.toNat_unknown]
  omega

/-- A def-site that starts early enough, with the end as its length, covers the range. -/
theorem mem_interval_of_lt {t : Memory R} {start stop b : Offset}
    (h : start = .unknown ∨
      (start.toNat ≤ b.toNat ∧ (stop = .unknown ∨ b.toNat < stop.toNat))) :
    b ∈ (DefSite.mk t start stop).getInterval := by
  have hin : InRange start stop b := by
    obtain hs | ⟨hlo, hhi⟩ := h
    · exact Or.inl hs
    · exact Or.inr ⟨Offset.le_iff.2 hlo, hhi.imp id fun hlt => by omega⟩
  have hmem := mem_interval_of_inRange (t := t) hin
  by_cases hs : start.isUnknown = true
  · unfold DefSite.getInterval at hmem ⊢
    rwa [if_pos hs] at hmem ⊢
  · rwa [if_neg hs] at hmem

theorem mem_interval_iff {t : Memory R} {start stop b : Offset} (h : start ≠ .unknown) :
    b ∈ (DefSite.mk t start stop).getInterval ↔ start ≤ b ∧ b ≤ start + (stop - 1) := by
  have hknown : ¬ start.isUnknown = true := by rwa [Offset.isUnknown_iff]
  rw [DefSite.getInterval]
  rw [if_neg hknown]
  exact Iff.rfl

theorem Access.lt_of_has {acc : Access N} {offset b : Offset} (h : acc.Has offset b)
    (ho : offset ≠ .unknown) (hl : acc.lower ≠ .unknown) (hu : acc.upper ≠ .unknown) :
    offset.toNat + acc.lower.toNat ≤ b.toNat ∧ b.toNat < offset.toNat + acc.upper.toNat := by
  obtain ⟨hlo, hhi⟩ := h.2.resolve_left ho
  exact ⟨hlo.resolve_left hl, hhi.resolve_left hu⟩

theorem Access.has_of_lt {acc : Access N} {offset b : Offset}
    (hlo : offset.toNat + acc.lower.toNat ≤ b.toNat)
    (hhi : b.toNat < offset.toNat + acc.upper.toNat) : acc.Has offset b :=
  ⟨Or.inr (Or.inr (Offset.lt_iff.2 (by omega))), Or.inr ⟨Or.inr hlo, Or.inr hhi⟩⟩

/-- The bytes of a def-site are in a range that is known if the first and the last one are. -/
theorem forall_has_iff {acc : Access N} {t : Memory R} {offset start stop : Offset}
    (hs : start ≠ .unknown) (ho : offset ≠ .unknown) (hl : acc.lower ≠ .unknown)
    (hu : acc.upper ≠ .unknown) :
    (∀ b ∈ (DefSite.mk t start stop).getInterval, acc.Has offset b) ↔
      Inside acc offset start stop := by
  have hle : start ≤ start + (stop - 1) := by
    rw [Offset.le_iff, Offset.toNat_add]
    have := start.toNat_lt
    omega
  constructor
  · intro h
    have hfirst := h start ((mem_interval_iff hs).2 ⟨le_rfl, hle⟩)
    have hlast := h (start + (stop - 1)) ((mem_interval_iff hs).2 ⟨hle, le_rfl⟩)
    exact ⟨(Access.lt_of_has hfirst ho hl hu).1, (Access.lt_of_has hlast ho hl hu).2⟩
  · rintro ⟨hlo, hhi⟩ b hb
    obtain ⟨hfirst, hlast⟩ := (mem_interval_iff hs).1 hb
    rw [Offset.le_iff] at hfirst hlast
    exact Access.has_of_lt (by omega) (by omega)

/-- **A strong update reaches no further than the range** only at the start of the memory. -/
theorem inside_self_iff {acc : Access N} {offset start stop : Offset}
    (hstart : start.toNat = offset.toNat + acc.lower.toNat)
    (hstop : stop.toNat = offset.toNat + acc.upper.toNat) (hs : start ≠ .unknown)
    (hu : stop ≠ .unknown) :
    Inside acc offset start stop ↔ start = 0 ∧ stop ≠ 0 := by
  have hs := Offset.ne_unknown_iff.1 hs
  have hu := Offset.ne_unknown_iff.1 hu
  rw [Inside]
  rw [← hstart, ← hstop, Ne, Offset.eq_iff, Offset.eq_iff, Offset.toNat_zero]
  by_cases hzero : stop.toNat = 0
  · -- the length 0 counts as unknown
    have hsub : stop - 1 = .unknown := by
      obtain rfl : stop = 0 := Offset.eq_iff.2 hzero
      rfl
    rw [hsub, Offset.toNat_add, Offset.toNat_unknown]
    omega
  · rw [Offset.toNat_add, Offset.toNat_sub_one hu (by omega)]
    omega

/-! ## The loops -/

/-- What a part of the code adds to a node: def-sites, those of strong updates, and uses. -/
structure Adds (f : Annotations R → Option (Annotations R)) (D O U : DefSite R → Prop) : Prop where
  defs : ∀ {a a'}, f a = some a' → ∀ ds,
    ds ∈ a'.defs ∨ ds ∈ a'.overwrites ↔ (ds ∈ a.defs ∨ ds ∈ a.overwrites) ∨ D ds
  overwrites : ∀ {a a'}, f a = some a' → ∀ ds, ds ∈ a'.overwrites ↔ ds ∈ a.overwrites ∨ O ds
  uses : ∀ {a a'}, f a = some a' → ∀ ds, ds ∈ a'.uses ↔ ds ∈ a.uses ∨ U ds

theorem Adds.none : Adds (R := R) some (fun _ => False) (fun _ => False) fun _ => False := by
  refine ⟨?_, ?_, ?_⟩ <;> rintro a a' ⟨⟩ ds <;> simp

theorem Adds.bind {f g : Annotations R → Option (Annotations R)} {D O U D' O' U' : DefSite R → Prop}
    (hf : Adds f D O U) (hg : Adds g D' O' U') :
    Adds (fun a => (f a).bind g) (fun ds => D ds ∨ D' ds) (fun ds => O ds ∨ O' ds)
      fun ds => U ds ∨ U' ds := by
  refine ⟨?_, ?_, ?_⟩ <;> intro a a' h ds <;> obtain ⟨b, hb, h⟩ := Option.bind_eq_some_iff.1 h
  · rw [hg.defs h, hf.defs hb, or_assoc]
  · rw [hg.overwrites h, hf.overwrites hb, or_assoc]
  · rw [hg.uses h, hf.uses hb, or_assoc]

theorem Adds.addDef [DecidableEq R] (ds : DefSite R) (s : Bool) :
    Adds (fun a => some (a.addDef ds s)) (· = ds) (fun ds' => ds' = ds ∧ s = true)
      fun _ => False := by
  refine ⟨?_, ?_, ?_⟩ <;> rintro a a' ⟨⟩ ds'
  · rw [Annotations.mem_defs_addDef, Annotations.mem_overwrites_addDef]
    cases s <;> simp <;> tauto
  · rw [Annotations.mem_overwrites_addDef, or_comm]
  · simp

theorem Adds.addUse [DecidableEq R] (ds : DefSite R) :
    Adds (fun a => some (a.addUse ds)) (fun _ => False) (fun _ => False) (· = ds) := by
  refine ⟨?_, ?_, ?_⟩ <;> rintro a a' ⟨⟩ ds'
  · simp
  · simp
  · rw [Annotations.mem_uses_addUse, or_comm]

/-- For a value that may be missing, where the program aborts. -/
theorem Adds.bindOption {α : Type v} (o : Option α) {f : α → Annotations R → Option (Annotations R)}
    {D O U : α → DefSite R → Prop} (h : ∀ x, Adds (f x) (D x) (O x) (U x)) :
    Adds (fun a => o.bind fun x => f x a) (fun ds => ∃ x, o = some x ∧ D x ds)
      (fun ds => ∃ x, o = some x ∧ O x ds) fun ds => ∃ x, o = some x ∧ U x ds := by
  cases o with
  | none => refine ⟨?_, ?_, ?_⟩ <;> intro a a' h <;> cases h
  | some x =>
      refine ⟨?_, ?_, ?_⟩ <;> intro a a' ha ds <;> simp only [Option.some.injEq, exists_eq_left']
      · exact (h x).defs ha ds
      · exact (h x).overwrites ha ds
      · exact (h x).uses ha ds

theorem Adds.congr {f g : Annotations R → Option (Annotations R)} {D O U D' O' U' : DefSite R → Prop}
    (hf : Adds f D O U) (hfg : ∀ a, g a = f a) (hD : ∀ ds, D ds ↔ D' ds) (hO : ∀ ds, O ds ↔ O' ds)
    (hU : ∀ ds, U ds ↔ U' ds) : Adds g D' O' U' := by
  refine ⟨?_, ?_, ?_⟩ <;> intro a a' h ds <;> rw [hfg] at h
  · rw [hf.defs h, hD]
  · rw [hf.overwrites h, hO]
  · rw [hf.uses h, hU]

/-- **A loop** adds what its rounds add. -/
theorem Adds.foldlM {α : Type u} {f : Annotations R → α → Option (Annotations R)}
    {D O U : α → DefSite R → Prop} {l : List α}
    (h : ∀ x ∈ l, Adds (fun a => f a x) (D x) (O x) (U x)) :
    Adds (fun a => l.foldlM f a) (fun ds => ∃ x ∈ l, D x ds) (fun ds => ∃ x ∈ l, O x ds)
      fun ds => ∃ x ∈ l, U x ds := by
  induction l with
  | nil => exact Adds.none.congr (fun a => rfl) (by simp) (by simp) (by simp)
  | cons x l ih =>
      obtain ⟨hx, hl⟩ := List.forall_mem_cons.1 h
      refine (hx.bind (ih hl)).congr (fun a => List.foldlM_cons) ?_ ?_ ?_ <;> intro ds <;>
        simp only [List.exists_mem_cons_iff]

section Intrinsic

variable {B : Builder V R} {getUserData : N → V}

/-- The length in a round, after the targets before it and with its own. -/
def lenAfter (len : Offset) (l : List (LLVMPointer V)) : Offset :=
  if l.any fun q => q.offset.isUnknown then .unknown else len

theorem lenAfter_cons (len : Offset) (ptr : LLVMPointer V) (l : List (LLVMPointer V)) :
    lenAfter len (ptr :: l) = lenAfter (if ptr.offset.isUnknown then .unknown else len) l := by
  unfold lenAfter
  rw [List.any_cons]
  by_cases h : ptr.offset.isUnknown = true
  · simp [h]
  · simp [h]

theorem lenAfter_eq_or (len : Offset) (l : List (LLVMPointer V)) :
    lenAfter len l = len ∨ lenAfter len l = .unknown := by
  rw [lenAfter]
  split
  · exact Or.inr rfl
  · exact Or.inl rfl

variable (B) in
/-- The def-site of some round of the loop over the targets. -/
def RoundSite (l : List (LLVMPointer V)) (len : Offset) (ds : DefSite R) : Prop :=
  ∃ pre ptr post n, l = pre ++ ptr :: post ∧ getOperand B ptr.value = some n ∧
    ds = ⟨.node n, ptr.offset, endOf ptr.offset (lenAfter len (pre ++ [ptr]))⟩

theorem roundSite_cons (ptr : LLVMPointer V) (l : List (LLVMPointer V)) (len : Offset)
    (ds : DefSite R) : RoundSite B (ptr :: l) len ds ↔
      (∃ n, getOperand B ptr.value = some n ∧ ds = ⟨.node n, ptr.offset,
          endOf ptr.offset (if ptr.offset.isUnknown then .unknown else len)⟩) ∨
        RoundSite B l (if ptr.offset.isUnknown then .unknown else len) ds := by
  have hone : lenAfter len [ptr] = if ptr.offset.isUnknown then .unknown else len := by
    rw [lenAfter_cons]
    rfl
  constructor
  · rintro ⟨pre, p, post, n, hl, hn, hds⟩
    cases pre with
    | nil =>
        obtain ⟨rfl, rfl⟩ := List.cons.inj hl
        exact Or.inl ⟨n, hn, hone ▸ hds⟩
    | cons q pre =>
        obtain ⟨rfl, rfl⟩ := List.cons.inj hl
        refine Or.inr ⟨pre, p, post, n, rfl, hn, ?_⟩
        rw [← lenAfter_cons]
        exact hds
  · rintro (⟨n, hn, hds⟩ | ⟨pre, p, post, n, rfl, hn, hds⟩)
    · exact ⟨[], ptr, l, n, rfl, hn, hone ▸ hds⟩
    · refine ⟨ptr :: pre, p, post, n, rfl, hn, ?_⟩
      rw [List.cons_append, lenAfter_cons]
      exact hds

variable [DecidableEq R]

/-- The def-sites of `defineTargets` are weak or strong by what they are. -/
theorem adds_defineTargets (l : List (LLVMPointer V)) (len : Offset) :
    Adds (defineTargets B l len) (RoundSite B l len)
      (fun ds => RoundSite B l len ds ∧ ds.offset ≠ .unknown ∧ ds.len ≠ .unknown)
      fun _ => False := by
  induction l generalizing len with
  | nil =>
      have hnone : ∀ ds, ¬ RoundSite B ([] : List (LLVMPointer V)) len ds := by
        rintro ds ⟨pre, ptr, post, n, hl, -⟩
        cases pre <;> cases hl
      exact Adds.none.congr (fun a => rfl) (by simp [hnone]) (by simp [hnone]) (by simp)
  | cons ptr l ih =>
      -- the first round, and the rest with its length
      let len' : Offset := if ptr.offset.isUnknown then .unknown else len
      have hfirst := Adds.bindOption (getOperand B ptr.value) fun target =>
        Adds.addDef (⟨.node target, ptr.offset, endOf ptr.offset len'⟩ : DefSite R)
          (!ptr.offset.isUnknown && !(endOf ptr.offset len').isUnknown)
      refine (hfirst.bind (ih len')).congr (fun a => ?_) (fun ds => (roundSite_cons _ _ _ _).symm)
        (fun ds => ?_) (by simp)
      · show (match getOperand B ptr.value with
          | some target => _
          | none => none) = _
        cases getOperand B ptr.value <;> rfl
      · rw [roundSite_cons, or_and_right]
        refine or_congr_left ?_
        simp only [Bool.and_eq_true, Bool.not_eq_true', Offset.isUnknown_eq_false_iff]
        rw [← exists_and_right]
        refine exists_congr fun n => ?_
        rw [and_assoc]
        refine and_congr_right fun _ => and_congr_right fun hds => ?_
        rw [hds]

end Intrinsic

section Model

variable (B : Builder V R) (getUserData : N → V) (model : FunctionModel) (CInst : CallInst N)

/-- A range of an operand behind one of the targets, as `funcFromModel` enters it. -/
def OperandSite (op : Option Operand) (ptr : LLVMPointer V) (ds : DefSite R) : Prop :=
  ∃ o n, op = some o ∧ getOperand B ptr.value = some n ∧
    ds = ⟨.node n, ptr.offset + (getFromTo CInst o).1, ptr.offset + (getFromTo CInst o).2⟩

variable {B getUserData model CInst}

theorem targets_of_missing {pointsTo : Option (PointsToSet N)}
    (h : (getLLVMPointsToChecked pointsTo).1 = false) :
    targets B getUserData (pointsToSet pointsTo) = [] := by
  cases pointsTo with
  | none => rfl
  | some S =>
      unfold pointsToSet getLLVMPointsToChecked at *
      by_cases hS : S.isEmpty = true
      · simp only [hS, if_true]
        rfl
      · simp [hS] at h

variable [DecidableEq R]

theorem adds_accessTarget (i : Nat) (single : Bool) (ptr : LLVMPointer V) :
    Adds (fun a => accessTarget B model CInst i single a ptr)
      (OperandSite B CInst (model.defines i) ptr)
      (fun ds => OperandSite B CInst (model.defines i) ptr ds ∧ single = true ∧
        ptr.offset ≠ .unknown ∧ B.kind ptr.value ≠ .callInst ∧
          ds.offset ≠ .unknown ∧ ds.len ≠ .unknown)
      (OperandSite B CInst (model.uses i) ptr) := by
  -- the def-site and the use one after the other
  have hdefine : ∀ target : R, Adds (fun a : Annotations R => some (match model.defines i with
        | some defines => a.addDef ⟨.node target, ptr.offset + (getFromTo CInst defines).1,
            ptr.offset + (getFromTo CInst defines).2⟩
            (single && !ptr.offset.isUnknown &&
              !(ptr.offset + (getFromTo CInst defines).1).isUnknown &&
              !(ptr.offset + (getFromTo CInst defines).2).isUnknown &&
              B.kind ptr.value ≠ .callInst)
        | none => a))
      (fun ds => ∃ o, model.defines i = some o ∧ ds = ⟨.node target,
        ptr.offset + (getFromTo CInst o).1, ptr.offset + (getFromTo CInst o).2⟩)
      (fun ds => (∃ o, model.defines i = some o ∧ ds = ⟨.node target,
        ptr.offset + (getFromTo CInst o).1, ptr.offset + (getFromTo CInst o).2⟩) ∧
          single = true ∧ ptr.offset ≠ .unknown ∧ B.kind ptr.value ≠ .callInst ∧
            ds.offset ≠ .unknown ∧ ds.len ≠ .unknown)
      fun _ => False := by
    intro target
    cases model.defines i with
    | none => exact Adds.none.congr (fun a => rfl) (by simp) (by simp) (by simp)
    | some o =>
        refine (Adds.addDef (R := R) _ _).congr (fun a => rfl) (by simp) (fun ds => ?_) (by simp)
        simp only [Option.some.injEq, exists_eq_left', Bool.and_eq_true, Bool.not_eq_true',
          Offset.isUnknown_eq_false_iff, decide_eq_true_eq]
        refine and_congr_right fun hds => ?_
        rw [hds]
        tauto
  have huse : ∀ target : R, Adds (fun a : Annotations R => some (match model.uses i with
        | some uses => a.addUse ⟨.node target, ptr.offset + (getFromTo CInst uses).1,
            ptr.offset + (getFromTo CInst uses).2⟩
        | none => a))
      (fun _ => False) (fun _ => False)
      (fun ds => ∃ o, model.uses i = some o ∧ ds = ⟨.node target,
        ptr.offset + (getFromTo CInst o).1, ptr.offset + (getFromTo CInst o).2⟩) := by
    intro target
    cases model.uses i with
    | none => exact Adds.none.congr (fun a => rfl) (by simp) (by simp) (by simp)
    | some o => exact (Adds.addUse (R := R) _).congr (fun a => rfl) (by simp) (by simp) (by simp)
  have hboth := Adds.bindOption (getOperand B ptr.value) fun target =>
    (hdefine target).bind (huse target)
  refine hboth.congr (fun a => ?_) (fun ds => ?_) (fun ds => ?_) fun ds => ?_
  · rw [accessTarget]
    cases getOperand B ptr.value <;> rfl
  · rw [OperandSite]
    simp only [or_false]
    exact ⟨fun ⟨n, hn, o, ho, hds⟩ => ⟨o, n, ho, hn, hds⟩,
      fun ⟨o, n, ho, hn, hds⟩ => ⟨n, hn, o, ho, hds⟩⟩
  · rw [OperandSite]
    simp only [or_false]
    exact ⟨fun ⟨n, hn, ⟨o, ho, hds⟩, hstrong⟩ => ⟨⟨o, n, ho, hn, hds⟩, hstrong⟩,
      fun ⟨⟨o, n, ho, hn, hds⟩, hstrong⟩ => ⟨n, hn, ⟨o, ho, hds⟩, hstrong⟩⟩
  · rw [OperandSite]
    simp only [false_or]
    exact ⟨fun ⟨n, hn, o, ho, hds⟩ => ⟨o, n, ho, hn, hds⟩,
      fun ⟨o, n, ho, hn, hds⟩ => ⟨n, hn, o, ho, hds⟩⟩

variable (B getUserData model CInst) in
/-- The range of some operand, behind one of its targets. -/
def ModelSite (f : Nat → Option Operand) (P : PointsToSet N → LLVMPointer V → DefSite R → Prop)
    (ds : DefSite R) : Prop :=
  ∃ i < CInst.getNumArgOperands,
    ∃ ptr ∈ targets B getUserData (pointsToSet (CInst.getArgOperand i).pointsTo),
      OperandSite B CInst (f i) ptr ds ∧ P (pointsToSet (CInst.getArgOperand i).pointsTo) ptr ds

/-- What is needed for a strong update. -/
def StrongSite (B : Builder V R) (S : PointsToSet N) (ptr : LLVMPointer V) (ds : DefSite R) : Prop :=
  S.pointers.length = 1 ∧ ptr.offset ≠ .unknown ∧ B.kind ptr.value ≠ .callInst ∧
    ds.offset ≠ .unknown ∧ ds.len ≠ .unknown

theorem adds_accessOperand (i : Nat) :
    Adds (fun a => accessOperand B getUserData model CInst a i)
      (fun ds => ∃ ptr ∈ targets B getUserData (pointsToSet (CInst.getArgOperand i).pointsTo),
        OperandSite B CInst (model.defines i) ptr ds)
      (fun ds => ∃ ptr ∈ targets B getUserData (pointsToSet (CInst.getArgOperand i).pointsTo),
        OperandSite B CInst (model.defines i) ptr ds ∧
          StrongSite B (pointsToSet (CInst.getArgOperand i).pointsTo) ptr ds)
      (fun ds => ∃ ptr ∈ targets B getUserData (pointsToSet (CInst.getArgOperand i).pointsTo),
        OperandSite B CInst (model.uses i) ptr ds) := by
  unfold accessOperand
  by_cases hhandles : model.handles i = true
  · by_cases hpts : (getLLVMPointsToChecked (CInst.getArgOperand i).pointsTo).1 = true
    · simp only [hhandles, hpts, Bool.not_true, Bool.false_eq_true, if_false]
      refine (Adds.foldlM fun ptr _ => adds_accessTarget i _ ptr).congr (fun a => rfl)
        (fun ds => Iff.rfl) (fun ds => ?_) fun ds => Iff.rfl
      simp only [decide_eq_true_eq]
      exact Iff.rfl
    · -- of a missing set there are no targets
      have hnone : targets B getUserData (pointsToSet (CInst.getArgOperand i).pointsTo) = [] :=
        targets_of_missing (Bool.not_eq_true _ ▸ hpts)
      simp only [hhandles, hpts, hnone, Bool.not_true, Bool.not_false, Bool.false_eq_true, if_true,
        if_false]
      exact Adds.none.congr (fun a => rfl) (by simp) (by simp) (by simp)
  · -- an operand that is not handled has no ranges
    have hnone : model.defines i = none ∧ model.uses i = none := by
      simpa [FunctionModel.handles] using hhandles
    simp only [hhandles, Bool.not_false, if_true]
    exact Adds.none.congr (fun a => rfl) (by simp [OperandSite, hnone.1])
      (by simp [OperandSite, hnone.1]) (by simp [OperandSite, hnone.2])

theorem adds_funcFromModel : Adds
    (fun a => (List.range CInst.getNumArgOperands).foldlM (accessOperand B getUserData model CInst) a)
    (ModelSite B getUserData CInst model.defines fun _ _ _ => True)
    (ModelSite B getUserData CInst model.defines (StrongSite B))
    (ModelSite B getUserData CInst model.uses fun _ _ _ => True) := by
  refine (Adds.foldlM fun i _ => adds_accessOperand i).congr (fun a => rfl) (fun ds => ?_)
    (fun ds => ?_) fun ds => ?_
  · simp [ModelSite]
  · simp [ModelSite]
  · simp [ModelSite]

end Model

/-! ## Coverage -/

section Coverage

variable {CInst : CallInst N}

theorem lower_wholeAccess {i : Nat} : (CInst.wholeAccess i).lower ≠ .unknown := by
  show (0 : Offset) ≠ .unknown
  decide

/-- The def-site of a round covers the bytes that the call accesses behind the target. -/
theorem mem_interval_round {t : Memory R} {i : Nat} {offset len b : Offset}
    (h : (CInst.wholeAccess i).Has offset b)
    (hlen : len = (CInst.wholeAccess i).upper ∨ len = .unknown) :
    b ∈ (DefSite.mk t offset (endOf offset len)).getInterval := by
  refine mem_interval_of_lt ?_
  obtain hoff | ⟨hlo, hhi⟩ := h.2
  · exact Or.inl hoff
  · refine Or.inr ⟨?_, ?_⟩
    · simpa [CallInst.wholeAccess] using hlo.resolve_left lower_wholeAccess
    · by_cases hend : endOf offset len = .unknown
      · exact Or.inl hend
      · have hknown : len ≠ .unknown := by
          rintro rfl
          exact hend (endOf_unknown_right offset)
        obtain rfl := hlen.resolve_right hknown
        rw [toNat_endOf hend]
        exact Or.inr (hhi.resolve_left hknown)

theorem add_eq_unknown_of_left {a b : Offset} (h : a = .unknown) : a + b = .unknown := by
  rw [h, Offset.eq_iff, Offset.toNat_add, Offset.toNat_unknown]
  omega

theorem add_eq_unknown_of_right {a b : Offset} (h : b = .unknown) : a + b = .unknown := by
  rw [h, Offset.eq_iff, Offset.toNat_add, Offset.toNat_unknown]
  omega

/-- A sum that is known does not saturate. -/
theorem toNat_add_of_ne {a b : Offset} (h : a + b ≠ .unknown) :
    (a + b).toNat = a.toNat + b.toNat := by
  have hlt := Offset.ne_unknown_iff.1 h
  rw [Offset.toNat_add] at hlt ⊢
  omega

/-- The def-site of an operand covers the bytes that the call accesses behind the target. -/
theorem mem_interval_operand {t : Memory R} {acc : Access N} {offset b : Offset}
    (h : acc.Has offset b) :
    b ∈ (DefSite.mk t (offset + acc.lower) (offset + acc.upper)).getInterval := by
  refine mem_interval_of_lt ?_
  by_cases hs : offset + acc.lower = .unknown
  · exact Or.inl hs
  · obtain hoff | ⟨hlo, hhi⟩ := h.2
    · exact absurd (add_eq_unknown_of_left hoff) hs
    · have hl : acc.lower ≠ .unknown := fun hl => hs (add_eq_unknown_of_right hl)
      refine Or.inr ⟨?_, ?_⟩
      · rw [toNat_add_of_ne hs]
        exact hlo.resolve_left hl
      · by_cases hu : offset + acc.upper = .unknown
        · exact Or.inl hu
        · have hupper : acc.upper ≠ .unknown := fun h => hu (add_eq_unknown_of_right h)
          rw [toNat_add_of_ne hu]
          exact Or.inr (hhi.resolve_left hupper)

/-- A length that is not 0 makes the byte at a pointer, or at the unknown offset, be accessed. -/
theorem has_offset {i : Nat} {offset : Offset} (h : (CInst.wholeAccess i).NonEmpty) :
    (CInst.wholeAccess i).Has offset offset := by
  refine ⟨h, Or.inr ⟨Or.inr (by simp [CallInst.wholeAccess]), ?_⟩⟩
  obtain hl | hu | hlt := h
  · exact absurd hl lower_wholeAccess
  · exact Or.inl hu
  · have hlt : (0 : Offset) < (CInst.wholeAccess i).upper := hlt
    rw [Offset.lt_iff, Offset.toNat_zero] at hlt
    exact Or.inr (by omega)

end Coverage

/-! ## When nodes are right -/

section Right

variable [DecidableEq N] [DecidableEq R] {B : Builder V R} {getUserData : N → V}

omit [DecidableEq R] in
theorem allKnown_of_right {D : DefSite R → Prop} {accesses : List (Access N)}
    (hD : ∀ ds, D ds → ∃ n, ds.target = .node n)
    (h : ∀ acc ∈ accesses, acc.NonEmpty → hasUnknown acc.set = true →
      ∃ ds, D ds ∧ ds.target = .unknown) : AllKnown accesses := by
  intro acc hacc hne
  rw [← Bool.not_eq_true]
  intro hunknown
  obtain ⟨ds, hds, htarget⟩ := h acc hacc hne hunknown
  obtain ⟨n, hn⟩ := hD ds hds
  cases hn.symm.trans htarget

omit [DecidableEq N] in
/-- The loop has found nodes for all targets. -/
theorem exists_node_of_defineTargets {l : List (LLVMPointer V)} {len : Offset}
    {a a' : Annotations R} (h : defineTargets B l len a = some a') :
    ∀ ptr ∈ l, ∃ n, getOperand B ptr.value = some n := by
  induction l generalizing len a with
  | nil => exact fun ptr hptr => absurd hptr List.not_mem_nil
  | cons ptr l ih =>
      rw [defineTargets] at h
      cases hn : getOperand B ptr.value with
      | none =>
          rw [hn] at h
          cases h
      | some n =>
          rw [hn] at h
          exact List.forall_mem_cons.2 ⟨⟨n, hn⟩, ih h⟩

/-- **Intrinsic calls.** -/
theorem createIntrinsicCall_right_iff {id : IntrinsicID} {CInst : CallInst N}
    {node : Annotations R} (h : createIntrinsicCall B getUserData id CInst = some node) :
    CallRight B getUserData (writes CInst (.intrinsic id)) (reads CInst (.intrinsic id)) node ↔
      Exact B getUserData CInst (.intrinsic id) := by
  have hadds := adds_defineTargets (B := B) (targets B getUserData (CInst.wholeAccess 0).set)
    (CInst.wholeAccess 0).upper
  have hdefs := hadds.defs h
  have hover := hadds.overwrites h
  have huses := hadds.uses h
  simp only [Annotations.empty, Finset.notMem_empty, or_false, false_or] at hdefs hover huses
  have hnodes := exists_node_of_defineTargets h
  have hwrites : ∀ acc, acc ∈ writes CInst (.intrinsic id) ↔ acc = CInst.wholeAccess 0 :=
    fun acc => List.mem_singleton
  have hreads : ∀ acc ∈ reads CInst (.intrinsic id), acc = CInst.wholeAccess 1 := by
    intro acc hacc
    cases id with
    | memset => exact absurd hacc List.not_mem_nil
    | memcpy => exact List.mem_singleton.1 hacc
    | memmove => exact List.mem_singleton.1 hacc
  constructor
  · intro hright
    refine ⟨allKnown_of_right (D := fun ds => ds ∈ node.defs ∨ ds ∈ node.overwrites) ?_
      hright.definesUnknown, ?_, fun acc hacc hne => ⟨?_, ?_⟩⟩
    · intro ds hds
      obtain ⟨_, _, _, n, -, -, rfl⟩ := (hdefs ds).1 hds
      exact ⟨n, rfl⟩
    · intro pre ptr post hl hknown hend
      have hptr : ptr ∈ targets B getUserData (CInst.wholeAccess 0).set := by
        rw [hl]
        exact List.mem_append_right pre List.mem_cons_self
      obtain ⟨n, hn⟩ := hnodes ptr hptr
      -- the round is one of a strong update
      have hafter : lenAfter (CInst.wholeAccess 0).upper (pre ++ [ptr]) =
          (CInst.wholeAccess 0).upper := by
        rw [lenAfter]
        rw [if_neg]
        simpa only [List.any_eq_true, Offset.isUnknown_iff, not_exists, not_and] using hknown
      have hoff : ptr.offset ≠ .unknown := hknown ptr (by simp)
      obtain ⟨ds, hds⟩ : ∃ ds : DefSite R, ds = ⟨.node n, ptr.offset,
        endOf ptr.offset (CInst.wholeAccess 0).upper⟩ := ⟨_, rfl⟩
      have hstrong : ds ∈ node.overwrites := by
        rw [hover, hds]
        refine ⟨⟨pre, ptr, post, n, hl, hn, by rw [hafter]⟩, hoff, ?_⟩
        dsimp only
        exact hend
      obtain ⟨acc, hacc, ptr', n', hsure, htarget, hhas⟩ := hright.overwrites ds hstrong
      rw [hds] at htarget hhas
      obtain rfl := (hwrites acc).1 hacc
      obtain rfl := hsure.exact.eq hptr
      obtain rfl : n = n' := Memory.node.inj htarget
      have hstart : ptr.offset.toNat = ptr.offset.toNat + (CInst.wholeAccess 0).lower.toNat := rfl
      have hinside := (inside_self_iff hstart (toNat_endOf hend) hoff hend).1
        ((forall_has_iff hoff hoff hsure.lower hsure.upper).1 hhas)
      refine ⟨hinside.1, fun hlen => hinside.2 ?_, n, hsure⟩
      rw [hinside.1, hlen]
      rfl
    · rw [List.eq_nil_iff_forall_not_mem]
      intro ptr hptr
      obtain rfl := hreads acc hacc
      obtain ⟨n, -, ds, hds, -⟩ := hright.uses _ hacc ptr hptr _ (has_offset hne)
      exact (huses ds).1 hds
    · rw [← Bool.not_eq_true]
      intro hunknown
      obtain ⟨ds, hds, -⟩ := hright.usesUnknown acc hacc hne hunknown
      exact (huses ds).1 hds
  · rintro ⟨hknown, hdest, hsrc⟩
    refine ⟨fun acc hacc ptr hptr b hb => ?_, fun acc hacc hne hunknown => ?_,
      fun acc hacc ptr hptr b hb => ?_, fun acc hacc hne hunknown => ?_, fun ds hds => ?_⟩
    · obtain rfl := (hwrites acc).1 hacc
      obtain ⟨n, hn⟩ := hnodes ptr hptr
      obtain ⟨pre, post, hl⟩ := List.append_of_mem hptr
      exact ⟨n, hn, _, (hdefs _).2 ⟨pre, ptr, post, n, hl, hn, rfl⟩, rfl,
        mem_interval_round hb (lenAfter_eq_or _ _)⟩
    · rw [hknown acc hacc hne] at hunknown
      cases hunknown
    · rw [(hsrc acc hacc hb.1).1] at hptr
      exact absurd hptr List.not_mem_nil
    · rw [(hsrc acc hacc hne).2] at hunknown
      cases hunknown
    · obtain ⟨⟨pre, ptr, post, n, hl, hn, rfl⟩, hoff, hlen⟩ := (hover ds).1 hds
      dsimp only at hoff hlen
      -- with the length known, no round before has met the unknown offset
      have hlenAfter : lenAfter (CInst.wholeAccess 0).upper (pre ++ [ptr]) ≠ .unknown := by
        intro hunknown
        rw [hunknown] at hlen
        exact hlen (endOf_unknown_right _)
      have hoffsets : ∀ q ∈ pre ++ [ptr], q.offset ≠ .unknown := by
        intro q hq hunknown
        refine hlenAfter (if_pos (List.any_eq_true.2 ⟨q, hq, ?_⟩))
        exact (Offset.isUnknown_iff _).2 hunknown
      have hafter := (lenAfter_eq_or _ _).resolve_right hlenAfter
      rw [hafter] at hlen ⊢
      obtain ⟨hzero, hne, n', hsure⟩ := hdest pre ptr post hl hoffsets hlen
      obtain rfl := Option.some.inj (hn.symm.trans hsure.target)
      have hstart : ptr.offset.toNat = ptr.offset.toNat + (CInst.wholeAccess 0).lower.toNat := rfl
      have hstop : endOf ptr.offset (CInst.wholeAccess 0).upper ≠ 0 := by
        rw [Ne, Offset.eq_iff, toNat_endOf hlen, hzero, Offset.toNat_zero, Nat.zero_add]
        rwa [Ne, Offset.eq_iff, Offset.toNat_zero] at hne
      exact ⟨_, (hwrites _).2 rfl, ptr, n, hsure, rfl,
        (forall_has_iff hoff hoff hsure.lower hsure.upper).2
          ((inside_self_iff hstart (toNat_endOf hlen) hoff hlen).2 ⟨hzero, hstop⟩)⟩

omit [DecidableEq N] in
/-- All targets of the operands that are handled have nodes. -/
theorem exists_node_of_funcFromModel {model : FunctionModel} {CInst : CallInst N}
    {node : Annotations R} (h : funcFromModel B getUserData model CInst = some node) {i : Nat}
    (hi : i < CInst.getNumArgOperands) (hhandles : model.handles i = true) :
    ∀ ptr ∈ targets B getUserData (pointsToSet (CInst.getArgOperand i).pointsTo),
      ∃ n, getOperand B ptr.value = some n := by
  refine Library.FallibleLoop.each_step (P := fun i => model.handles i = true →
    ∀ ptr ∈ targets B getUserData (pointsToSet (CInst.getArgOperand i).pointsTo),
      ∃ n, getOperand B ptr.value = some n) ?_ h i (List.mem_range.2 hi) hhandles
  intro i _ a a' hround hhandles ptr hptr
  rw [accessOperand] at hround
  by_cases hpts : (getLLVMPointsToChecked (CInst.getArgOperand i).pointsTo).1 = true
  · simp only [hhandles, hpts, Bool.not_true, Bool.false_eq_true, if_false] at hround
    refine Library.FallibleLoop.each_step (P := fun ptr => ∃ n, getOperand B ptr.value = some n)
      (fun q _ b b' hb => ?_) hround ptr hptr
    obtain ⟨n, hn, -⟩ := Option.map_eq_some_iff.1 hb
    exact ⟨n, hn⟩
  · rw [targets_of_missing (by simpa using hpts)] at hptr
    exact absurd hptr List.not_mem_nil

omit [DecidableEq N] [DecidableEq R] in
theorem mem_accesses {CInst : CallInst N} {f : Nat → Option Operand} {acc : Access N} :
    acc ∈ ((List.range CInst.getNumArgOperands).filterMap fun i =>
        (f i).map (Operand.access CInst i)) ↔
      ∃ i < CInst.getNumArgOperands, ∃ op, f i = some op ∧ acc = op.access CInst i := by
  simp only [List.mem_filterMap, List.mem_range, Option.map_eq_some_iff]
  exact exists_congr fun i => and_congr_right fun _ => exists_congr fun op =>
    and_congr_right fun _ => eq_comm

/-- **Modelled functions.** -/
theorem funcFromModel_right_iff {model : FunctionModel} {CInst : CallInst N}
    {node : Annotations R} (h : funcFromModel B getUserData model CInst = some node) :
    CallRight B getUserData (writes CInst (.model model)) (reads CInst (.model model)) node ↔
      Exact B getUserData CInst (.model model) := by
  have hdefs := adds_funcFromModel.defs h
  have hover := adds_funcFromModel.overwrites h
  have huses := adds_funcFromModel.uses h
  simp only [Annotations.empty, Finset.notMem_empty, or_false, false_or] at hdefs hover huses
  have hsites : ∀ {f P ds}, ModelSite B getUserData CInst f P ds → ∃ n, ds.target = .node n := by
    rintro f P ds ⟨i, -, ptr, -, ⟨o, n, -, -, rfl⟩, -⟩
    exact ⟨n, rfl⟩
  have hcovers : ∀ {f : Nat → Option Operand} {acc : Access N},
      acc ∈ ((List.range CInst.getNumArgOperands).filterMap fun i =>
        (f i).map (Operand.access CInst i)) →
      (∀ i op, f i = some op → model.handles i = true) →
      ∀ ptr ∈ targets B getUserData acc.set, ∀ b, acc.Has ptr.offset b →
        ∃ n, getOperand B ptr.value = some n ∧
          ∃ ds, ModelSite B getUserData CInst f (fun _ _ _ => True) ds ∧ Covers ds n b := by
    intro f acc hacc hhandles ptr hptr b hb
    obtain ⟨i, hi, op, hop, rfl⟩ := mem_accesses.1 hacc
    obtain ⟨n, hn⟩ := exists_node_of_funcFromModel h hi (hhandles i op hop) ptr hptr
    have hinside := mem_interval_operand (t := .node n) hb
    exact ⟨n, hn, _, ⟨i, hi, ptr, hptr, ⟨op, n, hop, hn, rfl⟩, trivial⟩, rfl, hinside⟩
  have hdefines : ∀ i op, model.defines i = some op → model.handles i = true := by
    intro i op hop
    simp [FunctionModel.handles, hop]
  have husesOp : ∀ i op, model.uses i = some op → model.handles i = true := by
    intro i op hop
    simp [FunctionModel.handles, hop]
  constructor
  · intro hright
    refine ⟨allKnown_of_right (D := fun ds => ds ∈ node.defs ∨ ds ∈ node.overwrites)
      (fun ds hds => hsites ((hdefs ds).1 hds)) hright.definesUnknown,
      allKnown_of_right (D := fun ds => ds ∈ node.uses)
        (fun ds hds => hsites ((huses ds).1 hds)) hright.usesUnknown, ?_⟩
    intro i hi op hop ptr n hexact hfun hcall hn hoff hlower hupper
    -- a definition that the node has as a strong one must be sure, by an access of the call
    obtain ⟨ds, hds⟩ : ∃ ds : DefSite R, ds = ⟨.node n, ptr.offset + (op.access CInst i).lower,
      ptr.offset + (op.access CInst i).upper⟩ := ⟨_, rfl⟩
    have hstrong : ds ∈ node.overwrites := by
      rw [hover, hds]
      exact ⟨i, hi, ptr, hexact.mem_targets hfun, ⟨op, n, hop, hn, rfl⟩, hexact.1, hoff, hcall,
        hlower, hupper⟩
    obtain ⟨acc, hacc, ptr', n', hsure, htarget, hhas⟩ := hright.overwrites ds hstrong
    rw [hds] at htarget hhas
    obtain rfl : n = n' := Memory.node.inj htarget
    exact ⟨acc, hacc, ptr', hsure,
      (forall_has_iff hlower hsure.offset hsure.lower hsure.upper).1 hhas⟩
  · rintro ⟨hwrites, hreads, hsure⟩
    refine ⟨fun acc hacc ptr hptr b hb => ?_, fun acc hacc hne hunknown => ?_,
      fun acc hacc ptr hptr b hb => ?_, fun acc hacc hne hunknown => ?_, fun ds hds => ?_⟩
    · obtain ⟨n, hn, ds, hds, hb⟩ := hcovers hacc hdefines ptr hptr b hb
      exact ⟨n, hn, ds, (hdefs ds).2 hds, hb⟩
    · -- no access is to an unknown pointer, so no unknown definition is asked for
      rw [hwrites acc hacc hne] at hunknown
      cases hunknown
    · obtain ⟨n, hn, ds, hds, hb⟩ := hcovers hacc husesOp ptr hptr b hb
      exact ⟨n, hn, ds, (huses ds).2 hds, hb⟩
    · rw [hreads acc hacc hne] at hunknown
      cases hunknown
    · obtain ⟨i, hi, ptr, hptr, ⟨op, n, hop, hn, hsite⟩, hlen, hoff, hcall, hlower, hupper⟩ :=
        (hover ds).1 hds
      rw [hsite] at hlower hupper ⊢
      obtain ⟨acc, hacc, ptr', hsure', hinside⟩ := hsure i hi op hop ptr n
        (isExactly_of_mem_targets hptr hlen)
        (of_decide_eq_true (List.mem_filter.1 hptr).2) hcall hn hoff hlower hupper
      exact ⟨acc, hacc, ptr', n, hsure', rfl,
        (forall_has_iff hlower hsure'.offset hsure'.lower hsure'.upper).2 hinside⟩

/-- **When the node of a call is right.** -/
theorem createCall_right_iff (B : Builder V R) (getUserData : N → V) (CInst : CallInst N)
    (called : Called) (node : Annotations R)
    (h : createCall B getUserData CInst called = some node) :
    CallRight B getUserData (writes CInst called) (reads CInst called) node ↔
      Exact B getUserData CInst called := by
  cases called with
  | model m => exact funcFromModel_right_iff h
  | intrinsic id => exact createIntrinsicCall_right_iff h

end Right

/-- `memset` of 4 bytes at an offset of a variable. -/
def memsetAt (offset : Offset) : CallInst Unit where
  getNumArgOperands := 3
  getArgOperand := fun i =>
    match i with
    | 0 => ⟨some (.singleton ⟨.node (), offset⟩), none⟩
    | 1 => ⟨none, some 0⟩
    | _ => ⟨none, some 4⟩

/-- **Setting the start of a variable** is annotated right or wrong by the condition. -/
theorem createCall_right_memset :
    CallRight oneVariable id (writes (memsetAt 0) (.intrinsic .memset))
      (reads (memsetAt 0) (.intrinsic .memset)) ⟨∅, {⟨.node (), 0, 4⟩}, ∅⟩ ↔
    Exact oneVariable id (memsetAt 0) (.intrinsic .memset) :=
  createCall_right_iff oneVariable id (memsetAt 0) (.intrinsic .memset)
    ⟨∅, {⟨.node (), 0, 4⟩}, ∅⟩ (by decide)

/-- **Bytes that are not written are overwritten**: setting the bytes 4 to 7 overwrites the 8 bytes
from 4 on. -/
theorem memset_overwrites_beyond :
    createCall oneVariable id (memsetAt 4) (.intrinsic .memset) =
      some ⟨∅, {⟨.node (), 4, 8⟩}, ∅⟩ ∧
    ¬ CallRight oneVariable id (writes (memsetAt 4) (.intrinsic .memset))
      (reads (memsetAt 4) (.intrinsic .memset)) ⟨∅, {⟨.node (), 4, 8⟩}, ∅⟩ := by
  refine ⟨by decide, fun hright => ?_⟩
  obtain ⟨acc, hacc, ptr, n, hsure, -, hhas⟩ :=
    hright.overwrites ⟨.node (), 4, 8⟩ (Finset.mem_singleton_self _)
  obtain rfl := List.mem_singleton.1 hacc
  obtain rfl : ⟨(), 4⟩ = ptr := List.singleton_inj.1 hsure.exact.2
  -- the byte 11 is in the def-site and behind the range
  have hlast := Access.lt_of_has (hhas 11 (by decide)) hsure.offset hsure.lower hsure.upper
  exact absurd hlast.2 (by decide)

end Cape.LLVMReadWriteGraph
