import Cape.PointerAnalysis.PointsToSet
import Mathlib.Data.BitVec
import Mathlib.Data.List.ReduceOption

/-!
# Constant expressions

`getConstantExprPointer`, which follows a constant expression down to a global, a function or null,
and the sum of the byte offsets along the expression. A GEP of the source puts its own offset in the
place of the one that it finds, and leaves it as it is when its own offset is no constant. So the
pointer is right when the inner offsets cancel out, and not for nested GEPs in general
(`constantExpr_right_iff`).
-/

set_option autoImplicit false

namespace Cape.PointerAnalysis

universe u

variable {N : Type u} {w : Nat}

/-! ## Expressions -/

/-- The indices of a GEP: all are zero, or `accumulateConstantOffset` finds an offset of the width of
a pointer, or it finds none. -/
inductive Indices (w : Nat) where
  | allZero
  | constant (offset : BitVec w)
  | other
deriving DecidableEq

/-- `accumulateConstantOffset`. -/
def Indices.offset : Indices w → Option (BitVec w)
  | .allZero => some 0
  | .constant offset => some offset
  | .other => none

/-- Constants. A `bitCast` is one between pointers, `extension` is a SExt or a ZExt, `arithmetic` a
Sub, Mul or SDiv and `bits` an And, Or, Trunc or shift. -/
inductive Constant (N : Type u) (w : Nat) where
  | global (g : N)
  | function (f : N)
  | null
  | int (value : Nat)
  | undef
  | other
  | gep (operand : Constant N w) (indices : Indices w)
  | bitCast (operand : Constant N w)
  | addrSpaceCast (operand : Constant N w)
  | ptrToInt (operand : Constant N w)
  | intToPtr (operand : Constant N w)
  | add (left right : Constant N w)
  | arithmetic (left right : Constant N w)
  | bits
  | extension
  | unsupported
deriving DecidableEq

namespace Constant

/-- `stripPointerCasts`: casts and GEPs whose indices are all zero are left out. -/
def stripPointerCasts : Constant N w → Constant N w
  | .bitCast e => stripPointerCasts e
  | .addrSpaceCast e => stripPointerCasts e
  | .gep e .allZero => stripPointerCasts e
  | e => e

theorem sizeOf_stripPointerCasts_le (e : Constant N w) : sizeOf e.stripPointerCasts ≤ sizeOf e := by
  fun_induction stripPointerCasts e with
  | case1 e ih =>
      simp only [bitCast.sizeOf_spec]
      omega
  | case2 e ih =>
      simp only [addrSpaceCast.sizeOf_spec]
      omega
  | case3 e ih =>
      simp only [gep.sizeOf_spec]
      omega
  | case4 e => exact le_refl _

end Constant

/-! ## The pointer -/

/-- `handleConstantGep` on the pointer of the operand. -/
def handleConstantGep (pointer : Pointer N) (indices : Indices w) : Pointer N :=
  match indices.offset with
  | some offset =>
      if !pointer.offset.isUnknown then ⟨pointer.target, ⟨offset.setWidth 64⟩⟩ else pointer
  | none => pointer

/-- `getConstantValue` of an integer: `getLimitedValue` cuts it off at the unknown offset. -/
def getConstantValue (value : Nat) : Offset := ⟨BitVec.ofNat 64 (min value (2 ^ 64 - 1))⟩

/-- The end of `handleConstantAdd`. -/
def handleConstantAdd (ptr : Pointer N) (off : Offset) : Pointer N :=
  if off.isUnknown then ⟨ptr.target, .unknown⟩ else ⟨ptr.target, ptr.offset + off⟩

/-- The end of `handleConstantArithmetic`. -/
def handleConstantArithmetic (ptr : Pointer N) : Pointer N := ⟨ptr.target, .unknown⟩

/-- `getConstantExprPointer`, and before it the pointers of the nodes that `getOperand` finds for the
constants that are no expressions. There is none where the source aborts. -/
def getConstantExprPointer : Constant N w → Option (Pointer N)
  | .global g => some ⟨.node g, 0⟩
  | .function f => some ⟨.node f, 0⟩
  | .null => some .nullPointer
  | .int value => some (if value = 0 then .nullPointer else .unknownPointer)
  | .undef => some .unknownPointer
  | .other => some .unknownPointer
  | .gep e indices => (getConstantExprPointer e).map fun p => handleConstantGep p indices
  | .bitCast e => getConstantExprPointer e.stripPointerCasts
  | .ptrToInt e => getConstantExprPointer e
  | .intToPtr (.int _) => some .unknownPointer
  | .intToPtr e => getConstantExprPointer e
  | .add (.int c) e => (getConstantExprPointer e).map fun p => handleConstantAdd p (getConstantValue c)
  | .add e (.int c) => (getConstantExprPointer e).map fun p => handleConstantAdd p (getConstantValue c)
  | .add e _ => (getConstantExprPointer e).map fun p => handleConstantAdd p .unknown
  | .arithmetic (.int _) e => (getConstantExprPointer e).map handleConstantArithmetic
  | .arithmetic e _ => (getConstantExprPointer e).map handleConstantArithmetic
  | .bits => some .unknownPointer
  -- a SExt or ZExt is cast to a BitCastInst
  | .extension => none
  | .addrSpaceCast _ => none
  | .unsupported => none
termination_by e => sizeOf e
decreasing_by
  all_goals simp_wf
  all_goals have hle := e.sizeOf_stripPointerCasts_le
  all_goals omega

/-! ## The sum of the offsets -/

namespace Constant

/-- Built from globals, functions and null by casts between pointers, conversions to integers and back
and GEPs. -/
inductive FromPointers : Constant N w → Prop
  | global (g : N) : FromPointers (.global g)
  | function (f : N) : FromPointers (.function f)
  | null : FromPointers .null
  | gep {e : Constant N w} (indices : Indices w) : FromPointers e → FromPointers (.gep e indices)
  | bitCast {e : Constant N w} : FromPointers e → FromPointers (.bitCast e)
  | ptrToInt {e : Constant N w} : FromPointers e → FromPointers (.ptrToInt e)
  | intToPtr {e : Constant N w} : FromPointers e → FromPointers (.intToPtr e)

/-- The target that an expression is built from. -/
def root : Constant N w → PSNode N
  | .global g => .node g
  | .function f => .node f
  | .gep e _ => root e
  | .bitCast e => root e
  | .ptrToInt e => root e
  | .intToPtr e => root e
  | _ => .nullptr

/-- The sum of the byte offsets along an expression, if all of them can be computed. -/
def byteSum : Constant N w → Option (BitVec w)
  | .gep e indices => (byteSum e).bind fun sum => indices.offset.map fun offset => sum + offset
  | .bitCast e => byteSum e
  | .ptrToInt e => byteSum e
  | .intToPtr e => byteSum e
  | _ => some 0

/-- The offsets of the GEPs that the analysis comes to, the inner ones first. Below a cast those with
zero indices only are stripped. -/
def gepOffsets : Bool → Constant N w → List (Option (BitVec w))
  | true, .gep e .allZero => gepOffsets true e
  | _, .gep e indices => gepOffsets false e ++ [indices.offset]
  | _, .bitCast e => gepOffsets true e
  | _, .ptrToInt e => gepOffsets false e
  | _, .intToPtr e => gepOffsets false e
  | _, _ => []

/-- The pointer is right: the target with the sum, or the unknown offset where there is no sum. -/
def PointerRight (e : Constant N w) : Prop :=
  match e.byteSum with
  | some sum => getConstantExprPointer e = some ⟨e.root, ⟨sum.setWidth 64⟩⟩
  | none => ∃ p, getConstantExprPointer e = some p ∧ p.offset = .unknown

end Constant

/-! ## Offsets in the place of each other -/

/-- An offset takes the place of the one before. -/
def replaceOffset (before : Offset) (offset : Option (BitVec w)) : Offset :=
  match offset with
  | some offset => if !before.isUnknown then ⟨offset.setWidth 64⟩ else before
  | none => before

theorem handleConstantGep_eq (p : Pointer N) (indices : Indices w) :
    handleConstantGep p indices = ⟨p.target, replaceOffset p.offset indices.offset⟩ := by
  rw [handleConstantGep]
  cases indices.offset with
  | none => rfl
  | some offset =>
      simp only [replaceOffset]
      split
      · rfl
      · rfl

/-- One of the offsets is the reserved number of the unknown offset. -/
def Reserved (offsets : List (Option (BitVec w))) : Prop :=
  ∃ d : BitVec w, some d ∈ offsets ∧ (⟨d.setWidth 64⟩ : Offset) = .unknown

/-- The sum of a list of offsets. -/
def sumOffsets (offsets : List (Option (BitVec w))) : Option (BitVec w) :=
  if none ∈ offsets then none else some offsets.reduceOption.sum

@[simp] theorem sumOffsets_nil : sumOffsets ([] : List (Option (BitVec w))) = some 0 := rfl

theorem sumOffsets_append (l : List (Option (BitVec w))) (d : Option (BitVec w)) :
    sumOffsets (l ++ [d]) = (sumOffsets l).bind fun sum => d.map fun offset => sum + offset := by
  unfold sumOffsets
  by_cases hl : none ∈ l
  · simp [hl]
  · cases d with
    | none => simp [hl]
    | some d => simp [hl, List.reduceOption_append]

/-- The condition under which the last offset is the sum of all. -/
def LastIsSum (offsets : List (Option (BitVec w))) : Prop :=
  (Reserved offsets ∧
    (none ∈ offsets ∨ (⟨offsets.reduceOption.sum.setWidth 64⟩ : Offset) = .unknown)) ∨
  (¬ Reserved offsets ∧ none ∉ offsets ∧ offsets.reduceOption.dropLast.sum = 0)

@[simp] theorem replaceOffset_unknown (d : Option (BitVec w)) :
    replaceOffset .unknown d = .unknown := by
  cases d with
  | none => rfl
  | some d => rfl

theorem foldl_unknown (l : List (Option (BitVec w))) :
    l.foldl replaceOffset .unknown = .unknown := by
  induction l with
  | nil => rfl
  | cons d l ih => rw [List.foldl_cons, replaceOffset_unknown, ih]

theorem replaceOffset_some {before : Offset} (h : before ≠ .unknown) (d : BitVec w) :
    replaceOffset before (some d) = ⟨d.setWidth 64⟩ := by
  simp [replaceOffset, h]

/-- Once the offset is unknown, it stays unknown. -/
theorem foldl_of_reserved {l : List (Option (BitVec w))} (h : Reserved l) (cur : Offset) :
    l.foldl replaceOffset cur = .unknown := by
  induction l generalizing cur with
  | nil =>
      obtain ⟨d, hd, -⟩ := h
      cases hd
  | cons x l ih =>
      rw [List.foldl_cons]
      obtain ⟨d, hd, hunknown⟩ := h
      rcases List.mem_cons.1 hd with rfl | hd
      · by_cases hcur : cur = .unknown
        · rw [hcur, replaceOffset_unknown, foldl_unknown]
        · rw [replaceOffset_some hcur, hunknown, foldl_unknown]
      · exact ih ⟨d, hd, hunknown⟩ _

/-- Else it is the last one that there is. -/
theorem foldl_of_not_reserved {l : List (Option (BitVec w))} (h : ¬ Reserved l) {cur : Offset}
    (hcur : cur ≠ .unknown) :
    l.foldl replaceOffset cur = l.reduceOption.getLast?.elim cur fun d => ⟨d.setWidth 64⟩ := by
  induction l generalizing cur with
  | nil => rfl
  | cons x l ih =>
      have hl : ¬ Reserved l := fun ⟨d, hd, hunknown⟩ =>
        h ⟨d, List.mem_cons_of_mem x hd, hunknown⟩
      rw [List.foldl_cons]
      cases x with
      | none => exact ih hl hcur
      | some d =>
          have hd : (⟨d.setWidth 64⟩ : Offset) ≠ .unknown := fun hunknown =>
            h ⟨d, List.mem_cons_self, hunknown⟩
          rw [replaceOffset_some hcur, ih hl hd, List.reduceOption_cons_of_some,
            List.getLast?_cons]
          cases l.reduceOption.getLast? with
          | none => rfl
          | some _ => rfl

theorem foldl_ne_unknown {l : List (Option (BitVec w))} (h : ¬ Reserved l) :
    l.foldl replaceOffset 0 ≠ .unknown := by
  rw [foldl_of_not_reserved h (by decide)]
  cases hlast : l.reduceOption.getLast? with
  | none =>
      show (0 : Offset) ≠ .unknown
      decide
  | some d =>
      intro hunknown
      have hmem := List.mem_of_getLast? hlast
      exact h ⟨d, List.reduceOption_mem_iff.1 hmem, hunknown⟩

/-- Numbers of the width of a pointer are told apart by 64 bits. -/
theorem setWidth_inj (hw : w ≤ 64) {a b : BitVec w} (h : a.setWidth 64 = b.setWidth 64) : a = b := by
  have hnat := congrArg BitVec.toNat h
  rw [BitVec.toNat_setWidth_of_le hw, BitVec.toNat_setWidth_of_le hw] at hnat
  exact BitVec.eq_of_toNat_eq hnat

/-- The last of some numbers is their sum if and only if the others cancel out. -/
theorem getLast_eq_sum_iff {M : Type*} [AddGroup M] (l : List M) :
    l.getLast?.getD 0 = l.sum ↔ l.dropLast.sum = 0 := by
  rcases List.eq_nil_or_concat l with rfl | ⟨front, d, rfl⟩
  · simp
  · simp [List.sum_append]

/-- **The offset that is left is the sum** if and only if the condition holds. -/
theorem foldl_eq_sum_iff (hw : w ≤ 64) (l : List (Option (BitVec w))) :
    (match sumOffsets l with
      | some sum => l.foldl replaceOffset 0 = ⟨sum.setWidth 64⟩
      | none => l.foldl replaceOffset 0 = .unknown) ↔ LastIsSum l := by
  rw [sumOffsets]
  by_cases hnone : none ∈ l
  · rw [if_pos hnone]
    show l.foldl replaceOffset 0 = .unknown ↔ _
    constructor
    · intro h
      by_cases hreserved : Reserved l
      · -- the reserved number makes the offset unknown, and it stays so
        exact Or.inl ⟨hreserved, Or.inl hnone⟩
      · exact absurd h (foldl_ne_unknown hreserved)
    · rintro (⟨h, -⟩ | ⟨-, h, -⟩)
      · exact foldl_of_reserved h 0
      · exact absurd hnone h
  · rw [if_neg hnone]
    show l.foldl replaceOffset 0 = ⟨l.reduceOption.sum.setWidth 64⟩ ↔ _
    by_cases hreserved : Reserved l
    · rw [foldl_of_reserved hreserved]
      constructor
      · exact fun h => Or.inl ⟨hreserved, Or.inr h.symm⟩
      · rintro (⟨-, h | h⟩ | ⟨h, -⟩)
        · exact absurd h hnone
        · exact h.symm
        · exact absurd hreserved h
    · -- the last offset takes the place of all before it
      have hlast : l.foldl replaceOffset 0 =
          ⟨(l.reduceOption.getLast?.getD 0).setWidth 64⟩ := by
        rw [foldl_of_not_reserved hreserved (by decide)]
        cases l.reduceOption.getLast? with
        | none => exact congrArg Offset.mk (BitVec.setWidth_zero 64 w).symm
        | some d => rfl
      rw [hlast]
      constructor
      · intro h
        have heq := setWidth_inj hw (Offset.mk.inj h)
        exact Or.inr ⟨hreserved, hnone, (getLast_eq_sum_iff _).1 heq⟩
      · rintro (⟨h, -⟩ | ⟨-, -, h⟩)
        · exact absurd h hreserved
        · rw [(getLast_eq_sum_iff _).2 h]

/-! ## The pointer of an expression -/

namespace Constant

/-- Stripping leaves out offsets of zero. -/
theorem byteSum_eq {e : Constant N w} (he : e.FromPointers) (below : Bool) :
    e.byteSum = sumOffsets (gepOffsets below e) := by
  induction he generalizing below with
  | global g => cases below <;> rfl
  | function f => cases below <;> rfl
  | null => cases below <;> rfl
  | @gep e indices he ih =>
      have hkept : (gep e indices).byteSum =
          sumOffsets (gepOffsets false e ++ [indices.offset]) := by
        rw [sumOffsets_append, ← ih false, byteSum]
      cases below with
      | false => exact hkept
      | true =>
          cases indices with
          | allZero =>
              -- the expression below a cast is stripped of it
              show _ = sumOffsets (gepOffsets true e)
              rw [← ih true, byteSum]
              cases e.byteSum <;> simp [Indices.offset]
          | constant offset => exact hkept
          | other => exact hkept
  | bitCast he ih => cases below <;> exact ih true
  | ptrToInt he ih => cases below <;> exact ih false
  | intToPtr he ih => cases below <;> exact ih false

/-- **The pointer of an expression**: its root with the offsets in the place of each other. -/
theorem getConstantExprPointer_eq {e : Constant N w} (he : e.FromPointers) :
    getConstantExprPointer e = some ⟨e.root, (gepOffsets false e).foldl replaceOffset 0⟩ ∧
      getConstantExprPointer e.stripPointerCasts =
        some ⟨e.root, (gepOffsets true e).foldl replaceOffset 0⟩ := by
  induction he with
  | global g =>
      have hroot : getConstantExprPointer (.global g : Constant N w) = some ⟨.node g, 0⟩ := by
        rw [getConstantExprPointer]
      exact ⟨hroot, hroot⟩
  | function f =>
      have hroot : getConstantExprPointer (.function f : Constant N w) = some ⟨.node f, 0⟩ := by
        rw [getConstantExprPointer]
      exact ⟨hroot, hroot⟩
  | null =>
      have hroot : getConstantExprPointer (.null : Constant N w) = some .nullPointer := by
        rw [getConstantExprPointer]
      exact ⟨hroot, hroot⟩
  | @gep e indices he ih =>
      have hkept : getConstantExprPointer (gep e indices) =
          some ⟨e.root, (gepOffsets false e ++ [indices.offset]).foldl replaceOffset 0⟩ := by
        rw [getConstantExprPointer, ih.1, Option.map_some, handleConstantGep_eq,
          List.foldl_append]
        rfl
      refine ⟨hkept, ?_⟩
      cases indices with
      | allZero => exact ih.2
      | constant offset => exact hkept
      | other => exact hkept
  | @bitCast e he ih =>
      have hcast : getConstantExprPointer (bitCast e) = getConstantExprPointer e.stripPointerCasts := by
        rw [getConstantExprPointer]
      exact ⟨hcast.trans ih.2, ih.2⟩
  | @ptrToInt e he ih =>
      have hcast : getConstantExprPointer (ptrToInt e) = getConstantExprPointer e := by
        rw [getConstantExprPointer]
      exact ⟨hcast.trans ih.1, hcast.trans ih.1⟩
  | @intToPtr e he ih =>
      -- the operand is not an integer
      have hcast : getConstantExprPointer (intToPtr e) = getConstantExprPointer e := by
        rw [getConstantExprPointer]
        rintro value rfl
        cases he
      exact ⟨hcast.trans ih.1, hcast.trans ih.1⟩

/-- **When the pointer of a constant expression is right.** -/
theorem constantExpr_right_iff (hw : w ≤ 64) {e : Constant N w} (he : e.FromPointers) :
    e.PointerRight ↔ LastIsSum (gepOffsets false e) := by
  rw [← foldl_eq_sum_iff hw, PointerRight, byteSum_eq he false, (getConstantExprPointer_eq he).1]
  cases sumOffsets (gepOffsets false e) with
  | none => simp
  | some sum => simp

/-- Two bytes behind the second word of a global. -/
def wordThenBytes : Constant Unit 64 :=
  .gep (.bitCast (.gep (.global ()) (.constant 4))) (.constant 2)

theorem constantExpr_right_wordThenBytes :
    wordThenBytes.PointerRight ↔ LastIsSum (gepOffsets false wordThenBytes) :=
  constantExpr_right_iff (le_refl 64) (.gep _ (.bitCast (.gep _ (.global ()))))

/-- The pointer is two bytes behind the start of the global. -/
theorem inner_offset_lost :
    getConstantExprPointer wordThenBytes = some ⟨.node (), 2⟩ ∧ wordThenBytes.byteSum = some 6 ∧
      ¬ wordThenBytes.PointerRight := by
  have hpointer : getConstantExprPointer wordThenBytes = some ⟨.node (), 2⟩ := by
    simp [wordThenBytes, getConstantExprPointer, stripPointerCasts, handleConstantGep,
      Indices.offset]
    decide
  refine ⟨hpointer, rfl, fun h => ?_⟩
  have h : getConstantExprPointer wordThenBytes = some ⟨.node (), 6⟩ := h
  rw [hpointer] at h
  exact absurd h (by decide)

end Constant

end Cape.PointerAnalysis
