import Cape.PointerAnalysis.PointsToSet

/-!
# The offsets of the elements of aggregates

Types with their data layout, `accumulateEVOffsets`, which follows the indices of an `extractvalue`
through a type, and `handleGlobalVariableInitializer`, which follows a constant through its operands
and stores the pointers in it.

The initializers are stored where the data layout has them (`storesRight`). The other path adds an index
to the size of an array element, where the layout multiplies the two. So it is right for structs, and
where the sums happen to agree with the products (`aggregateOffsets_agree_iff`).
-/

set_option autoImplicit false

namespace Cape.PointerAnalysis

universe u

/-! ## Types -/

/-- Sized types; a number is an integer or a floating-point number. -/
inductive Ty where
  | pointer
  | number (bits : Nat)
  | struct (packed : Bool) (elements : List Ty)
  | array (element : Ty) (count : Nat)

/-- `DataLayout`: sizes and offsets in bytes. -/
structure DataLayout where
  getTypeAllocSize : Ty → Nat
  /-- `getStructLayout(STy)->getElementOffset(idx)` -/
  getElementOffset : Bool → List Ty → Nat → Nat
  array_size : ∀ element count,
    getTypeAllocSize (.array element count) = count * getTypeAllocSize element
  /-- the elements of a struct lie in it -/
  element_le : ∀ packed elements i ty, elements[i]? = some ty →
    getElementOffset packed elements i + getTypeAllocSize ty ≤
      getTypeAllocSize (.struct packed elements)

/-- The indices lead to an element of a type. An index is a 32-bit number. -/
inductive IndexPath : Ty → List Nat → Prop
  | nil (ty : Ty) : IndexPath ty []
  | struct {packed : Bool} {elements : List Ty} {i : Nat} {ty : Ty} {rest : List Nat} :
      elements[i]? = some ty → IndexPath ty rest → IndexPath (.struct packed elements) (i :: rest)
  | array {element : Ty} {count i : Nat} {rest : List Nat} :
      i < count → i < 2 ^ 32 → IndexPath element rest → IndexPath (.array element count) (i :: rest)

/-- `ExtractValueInst`: the type of the aggregate, whose size in bits is a 64-bit number, and the
indices. -/
structure ExtractValueInst (DL : DataLayout) where
  type : Ty
  indices : List Nat
  path : IndexPath type indices
  fits : 8 * DL.getTypeAllocSize type < 2 ^ 64

namespace DataLayout

variable (DL : DataLayout)

/-- The offset that the data layout gives an element. -/
def offset : Ty → List Nat → Nat
  | .struct packed elements, i :: rest =>
      DL.getElementOffset packed elements i + (elements[i]?).elim 0 fun ty => offset ty rest
  | .array element _, i :: rest => i * DL.getTypeAllocSize element + offset element rest
  | _, _ => 0

/-- The indices into arrays on the way to an element, each with the size of the array's elements. -/
def arraySteps : Ty → List Nat → List (Nat × Nat)
  | .struct _ elements, i :: rest => (elements[i]?).elim [] fun ty => arraySteps ty rest
  | .array element _, i :: rest => (i, DL.getTypeAllocSize element) :: arraySteps element rest
  | _, _ => []

/-- The loop of `accumulateEVOffsets`. A type without elements ends it. -/
def accumulate : Ty → List Nat → Offset → Offset
  | .struct packed elements, idx :: rest, off =>
      let off := off + ⟨BitVec.ofNat 64 (DL.getElementOffset packed elements idx)⟩
      (elements[idx]?).elim off fun ty => accumulate ty rest off
  | .array element _, idx :: rest, off =>
      -- the source adds the index to the size
      accumulate element rest
        (off + ⟨BitVec.ofNat 64 idx + BitVec.ofNat 64 (DL.getTypeAllocSize element)⟩)
  | _, _, off => off

end DataLayout

/-- `accumulateEVOffsets`. -/
def accumulateEVOffsets {DL : DataLayout} (EV : ExtractValueInst DL) : Offset :=
  DL.accumulate EV.type EV.indices 0

/-! ## The offset of an `extractvalue` -/

namespace DataLayout

variable {DL : DataLayout}

/-- The index times the size, over all steps. -/
def products (steps : List (Nat × Nat)) : Nat := (steps.map fun step => step.1 * step.2).sum

/-- The index and the size, over all steps. -/
def sums (steps : List (Nat × Nat)) : Nat := (steps.map fun step => step.1 + step.2).sum

theorem offset_nil (ty : Ty) : DL.offset ty [] = 0 := by cases ty <;> rfl

theorem arraySteps_nil (ty : Ty) : DL.arraySteps ty [] = [] := by cases ty <;> rfl

theorem accumulate_nil (ty : Ty) (off : Offset) : DL.accumulate ty [] off = off := by
  cases ty <;> rfl

/-- An element lies in the type. -/
theorem offset_le {ty : Ty} {path : List Nat} (h : IndexPath ty path) :
    DL.offset ty path ≤ DL.getTypeAllocSize ty := by
  induction h with
  | nil ty =>
      rw [offset_nil]
      exact Nat.zero_le _
  | @struct packed elements i ty rest hty _ ih =>
      have hle := DL.element_le packed elements i ty hty
      rw [offset, hty, Option.elim_some]
      omega
  | @array element count i rest hi _ _ ih =>
      rw [offset, DL.array_size]
      calc i * DL.getTypeAllocSize element + DL.offset element rest
          ≤ i * DL.getTypeAllocSize element + DL.getTypeAllocSize element := Nat.add_le_add_left ih _
        _ = (i + 1) * DL.getTypeAllocSize element := (Nat.succ_mul _ _).symm
        _ ≤ count * DL.getTypeAllocSize element := Nat.mul_le_mul_right _ hi

theorem toNat_ofNat {n : Nat} (h : n < 2 ^ 64) : (⟨BitVec.ofNat 64 n⟩ : Offset).toNat = n := by
  show (BitVec.ofNat 64 n).toNat = n
  rw [BitVec.toNat_ofNat]
  exact Nat.mod_eq_of_lt h

/-- **What the loop computes**: both offsets have the structs in common, and differ in what they take
for the arrays. -/
theorem accumulate_spec {ty : Ty} {path : List Nat} (h : IndexPath ty path)
    (hfits : 8 * DL.getTypeAllocSize ty < 2 ^ 64) :
    ∃ base, DL.offset ty path = base + products (DL.arraySteps ty path) ∧
      ∀ off, (DL.accumulate ty path off).toNat =
        min (off.toNat + base + sums (DL.arraySteps ty path)) (2 ^ 64 - 1) := by
  induction h with
  | nil ty =>
      refine ⟨0, ?_, fun off => ?_⟩
      · rw [offset_nil, arraySteps_nil]
        rfl
      · have hlt := off.toNat_lt
        rw [accumulate_nil, arraySteps_nil]
        simp only [sums, List.map_nil, List.sum_nil]
        omega
  | @struct packed elements i ty rest hty _ ih =>
      -- the element lies in the struct, so it fits as well
      have hle := DL.element_le packed elements i ty hty
      obtain ⟨base, hoffset, hacc⟩ := ih (by omega)
      refine ⟨DL.getElementOffset packed elements i + base, ?_, fun off => ?_⟩
      · rw [offset, arraySteps, hty, Option.elim_some, Option.elim_some, hoffset]
        omega
      · rw [accumulate, arraySteps, hty, Option.elim_some, Option.elim_some, hacc, Offset.toNat_add,
          toNat_ofNat (by omega)]
        omega
  | @array element count i rest hi hindex _ ih =>
      have hsize : DL.getTypeAllocSize element ≤ DL.getTypeAllocSize (.array element count) := by
        rw [DL.array_size]
        exact Nat.le_mul_of_pos_left _ (by omega)
      obtain ⟨base, hoffset, hacc⟩ := ih (by omega)
      -- the index and the size are added
      have hstep : (⟨BitVec.ofNat 64 i + BitVec.ofNat 64 (DL.getTypeAllocSize element)⟩ :
          Offset).toNat = i + DL.getTypeAllocSize element := by
        rw [← BitVec.ofNat_add]
        exact toNat_ofNat (by omega)
      refine ⟨base, ?_, fun off => ?_⟩
      · rw [offset, arraySteps, hoffset]
        simp only [products, List.map_cons, List.sum_cons]
        omega
      · rw [accumulate, arraySteps, hacc, Offset.toNat_add, hstep]
        simp only [sums, List.map_cons, List.sum_cons]
        omega

end DataLayout

/-- **The offset of an `extractvalue`** is that of the data layout if and only if the sums and the
products of the indices and sizes agree. -/
theorem accumulateEVOffsets_eq_iff {DL : DataLayout} (EV : ExtractValueInst DL) :
    (accumulateEVOffsets EV).toNat = DL.offset EV.type EV.indices ↔
      DataLayout.sums (DL.arraySteps EV.type EV.indices) =
        DataLayout.products (DL.arraySteps EV.type EV.indices) := by
  obtain ⟨base, hoffset, hacc⟩ := DataLayout.accumulate_spec EV.path EV.fits
  have hle : DL.offset EV.type EV.indices ≤ DL.getTypeAllocSize EV.type :=
    DataLayout.offset_le EV.path
  have hfits := EV.fits
  rw [accumulateEVOffsets, hacc, hoffset, Offset.toNat_zero]
  omega

/-! ## Initializers of globals -/

/-- Constants that initialize a global. A `null` is a null value of any type, a `number` another
integer, floating-point number or an expression of such a type, and `data` is an array of numbers
without operands. -/
inductive Initializer (N : Type u) where
  | null (type : Ty)
  | pointer (value : PSNode N)
  | undef (type : Ty)
  | number (bits : Nat)
  | data (bits count : Nat)
  | struct (packed : Bool) (elements : List (Initializer N))
  | array (elementType : Ty) (elements : List (Initializer N))
  | unhandled (type : Ty)

/-- What is known about the global: a flag, and the `STORE` nodes in their order, each with the offset
of the `CONSTANT` node that is its address. -/
structure GlobalMemory (N : Type u) where
  zeroInitialized : Bool := false
  stores : List (Offset × PSNode N) := []

namespace Initializer

variable {N : Type u}

mutual
/-- `getType`. -/
def type : Initializer N → Ty
  | .null ty => ty
  | .pointer _ => .pointer
  | .undef ty => ty
  | .number bits => .number bits
  | .data bits count => .array (.number bits) count
  | .struct packed elements => .struct packed (types elements)
  | .array elementType elements => .array elementType elements.length
  | .unhandled ty => ty
def types : List (Initializer N) → List Ty
  | [] => []
  | C :: rest => type C :: types rest
end

mutual
/-- The elements of an array have its element type, and every constant is one that is handled. -/
def WellTyped : Initializer N → Prop
  | .struct _ elements => AllWellTyped elements
  | .array elementType elements =>
      AllWellTyped elements ∧ ∀ ty ∈ types elements, ty = elementType
  | .unhandled _ => False
  | _ => True
def AllWellTyped : List (Initializer N) → Prop
  | [] => True
  | C :: rest => WellTyped C ∧ AllWellTyped rest
end

mutual
/-- The pointers in a constant, and the scalars that are undefined, each with its indices. -/
def elements : Initializer N → List (List Nat × PSNode N)
  | .pointer value => [([], value)]
  | .undef .pointer => [([], .unknownMemory)]
  | .undef (.number _) => [([], .unknownMemory)]
  | .struct _ operands => operandElements 0 operands
  | .array _ operands => operandElements 0 operands
  | _ => []
def operandElements : Nat → List (Initializer N) → List (List Nat × PSNode N)
  | _, [] => []
  | i, C :: rest =>
      ((elements C).map fun element => (i :: element.1, element.2)) ++ operandElements (i + 1) rest
end

end Initializer

/-- A `CONSTANT` node for the address and the `STORE`. -/
def GlobalMemory.store {N : Type u} (s : GlobalMemory N) (offset : BitVec 64) (value : PSNode N) :
    GlobalMemory N :=
  { s with stores := s.stores ++ [(⟨offset⟩, value)] }

section Builder

variable {N : Type u} (DL : DataLayout)

mutual
/-- `handleGlobalVariableInitializer`. There is no result where the source aborts. -/
def handleGlobalVariableInitializer : Initializer N → BitVec 64 → GlobalMemory N →
    Option (GlobalMemory N)
  | .null _, _, s => some { s with zeroInitialized := true }
  | .struct packed operands, offset, s =>
      handleStructOperands packed (Initializer.types operands) offset operands 0 s
  | .array _ operands, offset, s => handleArrayOperands offset operands 0 s
  | .pointer value, offset, s => some (s.store offset value)
  -- an undefined pointer is one to unknown memory, and an undefined aggregate has no operands
  | .undef .pointer, offset, s => some (s.store offset .unknownMemory)
  | .undef (.number _), offset, s => some (s.store offset .unknownMemory)
  | .undef _, _, s => some s
  | .number _, _, s => some s
  | .data _ _, _, s => some s
  | .unhandled _, _, _ => none
/-- The loop over the operands of a struct. -/
def handleStructOperands (packed : Bool) (types : List Ty) (offset : BitVec 64) :
    List (Initializer N) → Nat → GlobalMemory N → Option (GlobalMemory N)
  | [], _, s => some s
  | op :: rest, i, s =>
      (handleGlobalVariableInitializer op
          (offset + BitVec.ofNat 64 (DL.getElementOffset packed types i)) s).bind fun s =>
        handleStructOperands packed types offset rest (i + 1) s
/-- The loop over the operands of an array; `off` is the size of those before. -/
def handleArrayOperands (offset : BitVec 64) :
    List (Initializer N) → BitVec 64 → GlobalMemory N → Option (GlobalMemory N)
  | [], _, s => some s
  | op :: rest, off, s =>
      (handleGlobalVariableInitializer op (offset + off) s).bind fun s =>
        handleArrayOperands offset rest (off + BitVec.ofNat 64 (DL.getTypeAllocSize op.type)) s
end

/-! ## Where the elements are stored -/

/-- Some elements of a type, as they are stored from an offset on. -/
def placed (ty : Ty) (offset : BitVec 64) (elements : List (List Nat × PSNode N)) :
    List (Offset × PSNode N) :=
  elements.map fun element => (⟨offset + BitVec.ofNat 64 (DL.offset ty element.1)⟩, element.2)

/-- A constant is handled, and its elements are stored where the data layout has them. -/
def StoresRight (C : Initializer N) : Prop :=
  ∀ offset s, ∃ t, handleGlobalVariableInitializer DL C offset s = some t ∧
    t.stores = s.stores ++ placed DL C.type offset C.elements

/-- The elements of one operand, which starts at `start`. -/
theorem placed_operand {ty opTy : Ty} {i start : Nat}
    (hoffset : ∀ path, DL.offset ty (i :: path) = start + DL.offset opTy path) (offset : BitVec 64)
    (elements : List (List Nat × PSNode N)) :
    placed DL ty offset (elements.map fun element => (i :: element.1, element.2)) =
      placed DL opTy (offset + BitVec.ofNat 64 start) elements := by
  rw [placed, placed, List.map_map]
  refine List.map_congr_left fun element _ => ?_
  show ((⟨offset + BitVec.ofNat 64 (DL.offset ty (i :: element.1))⟩ : Offset), element.2) = _
  rw [hoffset, BitVec.ofNat_add, BitVec.add_assoc]

theorem stores_struct {operands : List (Initializer N)} (h : ∀ op ∈ operands, StoresRight DL op)
    (packed : Bool) (offset : BitVec 64) : ∀ (before : List Ty) (s : GlobalMemory N),
      ∃ t, handleStructOperands DL packed (before ++ Initializer.types operands) offset operands
          before.length s = some t ∧
        t.stores = s.stores ++ placed DL (.struct packed (before ++ Initializer.types operands))
          offset (Initializer.operandElements before.length operands) := by
  induction operands with
  | nil => exact fun before s => ⟨s, rfl, by simp [Initializer.operandElements, placed]⟩
  | cons op rest ih =>
      intro before s
      have htypes : before ++ Initializer.types (op :: rest) =
          (before ++ [op.type]) ++ Initializer.types rest := by
        simp [Initializer.types]
      have hop : (before ++ Initializer.types (op :: rest))[before.length]? = some op.type := by
        simp [Initializer.types]
      -- where the operand starts
      have hstart : ∀ path, DL.offset (.struct packed (before ++ Initializer.types (op :: rest)))
          (before.length :: path) = DL.getElementOffset packed
            (before ++ Initializer.types (op :: rest)) before.length + DL.offset op.type path := by
        intro path
        rw [DataLayout.offset, hop, Option.elim_some]
      obtain ⟨t, ht, htstores⟩ := h op List.mem_cons_self (offset + BitVec.ofNat 64
        (DL.getElementOffset packed (before ++ Initializer.types (op :: rest)) before.length)) s
      obtain ⟨u, hu, hustores⟩ := ih (fun op' hop' => h op' (List.mem_cons_of_mem op hop'))
        (before ++ [op.type]) t
      rw [← htypes, List.length_append, List.length_singleton] at hu hustores
      refine ⟨u, ?_, ?_⟩
      · rw [handleStructOperands, ht, Option.bind_some, hu]
      · rw [hustores, htstores, Initializer.operandElements, List.append_assoc]
        rw [← placed_operand DL hstart, placed, placed, placed, List.map_append]

theorem stores_array {operands : List (Initializer N)} (h : ∀ op ∈ operands, StoresRight DL op)
    {elementType : Ty} (hty : ∀ ty ∈ Initializer.types operands, ty = elementType) (count : Nat)
    (offset : BitVec 64) : ∀ (i : Nat) (s : GlobalMemory N),
      ∃ t, handleArrayOperands DL offset operands
          (BitVec.ofNat 64 (i * DL.getTypeAllocSize elementType)) s = some t ∧
        t.stores = s.stores ++ placed DL (.array elementType count) offset
          (Initializer.operandElements i operands) := by
  induction operands with
  | nil => exact fun i s => ⟨s, rfl, by simp [Initializer.operandElements, placed]⟩
  | cons op rest ih =>
      intro i s
      have hop : op.type = elementType := hty op.type (by simp [Initializer.types])
      have hstart : ∀ path, DL.offset (.array elementType count) (i :: path) =
          i * DL.getTypeAllocSize elementType + DL.offset elementType path := by
        intro path
        rw [DataLayout.offset]
      obtain ⟨t, ht, htstores⟩ := h op List.mem_cons_self
        (offset + BitVec.ofNat 64 (i * DL.getTypeAllocSize elementType)) s
      obtain ⟨u, hu, hustores⟩ := ih (fun op' hop' => h op' (List.mem_cons_of_mem op hop'))
        (fun ty hmem => hty ty (by simp [Initializer.types, hmem])) (i + 1) t
      refine ⟨u, ?_, ?_⟩
      · rw [handleArrayOperands, ht, Option.bind_some, hop, ← BitVec.ofNat_add, ← Nat.succ_mul, hu]
      · rw [hustores, htstores, Initializer.operandElements, List.append_assoc, hop]
        rw [← placed_operand DL hstart, placed, placed, placed, List.map_append]

mutual
/-- **The elements of a constant are stored where the data layout has them.** -/
theorem storesRight : ∀ {C : Initializer N}, C.WellTyped → StoresRight DL C
  | .null ty, _ => fun _ s =>
      ⟨{ s with zeroInitialized := true }, rfl, by simp [Initializer.elements, placed]⟩
  | .pointer value, _ => fun offset s => ⟨s.store offset value, rfl, by
      simp [Initializer.elements, placed, GlobalMemory.store, DataLayout.offset_nil]⟩
  | .undef .pointer, _ => fun offset s => ⟨s.store offset .unknownMemory, rfl, by
      simp [Initializer.elements, placed, GlobalMemory.store, DataLayout.offset_nil]⟩
  | .undef (.number _), _ => fun offset s => ⟨s.store offset .unknownMemory, rfl, by
      simp [Initializer.elements, placed, GlobalMemory.store, DataLayout.offset_nil]⟩
  | .undef (.struct _ _), _ => fun _ s => ⟨s, rfl, by simp [Initializer.elements, placed]⟩
  | .undef (.array _ _), _ => fun _ s => ⟨s, rfl, by simp [Initializer.elements, placed]⟩
  | .number _, _ => fun _ s => ⟨s, rfl, by simp [Initializer.elements, placed]⟩
  | .data _ _, _ => fun _ s => ⟨s, rfl, by simp [Initializer.elements, placed]⟩
  | .struct packed operands, h => fun offset s =>
      stores_struct DL (allStoreRight h) packed offset [] s
  | .array elementType operands, h => fun offset s => by
      obtain ⟨t, ht, hstores⟩ := stores_array DL (allStoreRight h.1) h.2 operands.length offset 0 s
      rw [Nat.zero_mul] at ht
      exact ⟨t, ht, hstores⟩
theorem allStoreRight : ∀ {operands : List (Initializer N)}, Initializer.AllWellTyped operands →
    ∀ op ∈ operands, StoresRight DL op
  | [], _ => fun _ hop => absurd hop List.not_mem_nil
  | _ :: _, h => List.forall_mem_cons.2 ⟨storesRight h.1, allStoreRight h.2⟩
end

end Builder

/-! ## Both paths -/

/-- The two paths and the data layout agree on an element: `extractvalue` has its offset, and a global
with such an initializer has its elements at their offsets, among them this one. -/
structure AggregateOffsetsAgree (N : Type u) {DL : DataLayout} (EV : ExtractValueInst DL) : Prop where
  extract : (accumulateEVOffsets EV).toNat = DL.offset EV.type EV.indices
  stored : ∀ C : Initializer N, C.WellTyped → C.type = EV.type →
    ∃ s, handleGlobalVariableInitializer DL C 0 {} = some s ∧
      s.stores = placed DL EV.type 0 C.elements ∧
      ∀ value, (EV.indices, value) ∈ C.elements → (accumulateEVOffsets EV, value) ∈ s.stores

/-- **When the offsets of an aggregate agree.** -/
theorem aggregateOffsets_agree_iff (N : Type u) {DL : DataLayout} (EV : ExtractValueInst DL) :
    AggregateOffsetsAgree N EV ↔ DataLayout.sums (DL.arraySteps EV.type EV.indices) =
      DataLayout.products (DL.arraySteps EV.type EV.indices) := by
  rw [← accumulateEVOffsets_eq_iff]
  refine ⟨fun h => h.extract, fun h => ⟨h, fun C hC htype => ?_⟩⟩
  obtain ⟨s, hs, hstores⟩ := storesRight DL hC 0 {}
  have hplaced : s.stores = placed DL EV.type 0 C.elements := by
    rw [hstores, htype]
    rfl
  refine ⟨s, hs, hplaced, fun value hvalue => ?_⟩
  have hoffset : accumulateEVOffsets EV =
      ⟨0 + BitVec.ofNat 64 (DL.offset EV.type EV.indices)⟩ := by
    have hle : DL.offset EV.type EV.indices ≤ DL.getTypeAllocSize EV.type :=
    DataLayout.offset_le EV.path
    have hfits := EV.fits
    have hzero : (0 : BitVec 64) + BitVec.ofNat 64 (DL.offset EV.type EV.indices) =
        BitVec.ofNat 64 (DL.offset EV.type EV.indices) := BitVec.zero_add _
    rw [hzero, Offset.eq_iff, h, DataLayout.toNat_ofNat (by omega)]
  rw [hplaced, hoffset]
  exact List.mem_map_of_mem hvalue

/-! ## A layout with 64-bit pointers -/

/-- The next multiple of an alignment. -/
def alignTo (n alignment : Nat) : Nat := (n + alignment - 1) / alignment * alignment

theorem le_alignTo {n alignment : Nat} (h : 0 < alignment) : n ≤ alignTo n alignment := by
  have hdiv := Nat.div_add_mod (n + alignment - 1) alignment
  have hmod := Nat.mod_lt (n + alignment - 1) h
  rw [alignTo, Nat.mul_comm]
  omega

/-- A field of a struct: its size and its alignment. -/
structure Field where
  size : Nat
  alignment : Nat
  pos : 0 < alignment

/-- Where the field with an index starts, when the first one comes to `off` or behind it. -/
def fieldOffset : List Field → Nat → Nat → Nat
  | [], _, off => off
  | field :: _, 0, off => alignTo off field.alignment
  | field :: fields, i + 1, off => fieldOffset fields i (alignTo off field.alignment + field.size)

/-- Where the fields end. -/
def fieldsEnd : List Field → Nat → Nat
  | [], off => off
  | field :: fields, off => fieldsEnd fields (alignTo off field.alignment + field.size)

theorem le_fieldsEnd (fields : List Field) (off : Nat) : off ≤ fieldsEnd fields off := by
  induction fields generalizing off with
  | nil => exact le_refl off
  | cons field fields ih =>
      have hle := le_alignTo (n := off) field.pos
      exact (hle.trans (Nat.le_add_right _ field.size)).trans (ih _)

theorem fieldOffset_add_size_le {fields : List Field} {i : Nat} {field : Field}
    (h : fields[i]? = some field) (off : Nat) :
    fieldOffset fields i off + field.size ≤ fieldsEnd fields off := by
  induction fields generalizing i off with
  | nil => cases h
  | cons first fields ih =>
      cases i with
      | zero =>
          obtain rfl := Option.some.inj h
          exact le_fieldsEnd fields _
      | succ i => exact ih h _

theorem word_pos : 0 < 4 := by decide

/-- A number of bytes is aligned to the next power of two, up to 8. -/
def numberField (bits : Nat) : Field :=
  let bytes := (bits + 7) / 8
  if bytes ≤ 1 then ⟨bytes, 1, by decide⟩
  else if bytes ≤ 2 then ⟨2, 2, by decide⟩
  else if bytes ≤ 4 then ⟨4, 4, word_pos⟩
  else ⟨alignTo bytes 8, 8, by decide⟩

mutual
/-- A type as a field. -/
def fieldOf : Ty → Field
  | .pointer => ⟨8, 8, by decide⟩
  | .number bits => numberField bits
  | .struct packed elements =>
      let fields := fieldsOf packed elements
      let alignment := max 1 (fields.foldr (fun field a => max field.alignment a) 0)
      ⟨alignTo (fieldsEnd fields 0) alignment, alignment, lt_max_of_lt_left Nat.one_pos⟩
  | .array element count =>
      ⟨count * (fieldOf element).size, (fieldOf element).alignment, (fieldOf element).pos⟩
def fieldsOf (packed : Bool) : List Ty → List Field
  | [] => []
  | ty :: rest =>
      ⟨(fieldOf ty).size, if packed then 1 else (fieldOf ty).alignment, by
        split
        · exact Nat.one_pos
        · exact (fieldOf ty).pos⟩ :: fieldsOf packed rest
end

theorem getElem?_fieldsOf (packed : Bool) {elements : List Ty} {i : Nat} {ty : Ty}
    (h : elements[i]? = some ty) :
    ∃ field, (fieldsOf packed elements)[i]? = some field ∧ field.size = (fieldOf ty).size := by
  induction elements generalizing i with
  | nil => cases h
  | cons first elements ih =>
      cases i with
      | zero =>
          obtain rfl := Option.some.inj h
          exact ⟨_, rfl, rfl⟩
      | succ i => exact ih h

/-- The layout of a machine with 64-bit pointers, whose numbers are aligned to their sizes. -/
def layout64 : DataLayout where
  getTypeAllocSize := fun ty => (fieldOf ty).size
  getElementOffset := fun packed elements i => fieldOffset (fieldsOf packed elements) i 0
  array_size := fun _ _ => rfl
  element_le := by
    intro packed elements i ty h
    obtain ⟨field, hfield, hsize⟩ := getElem?_fieldsOf packed h
    rw [← hsize]
    exact (fieldOffset_add_size_le hfield 0).trans (le_alignTo (lt_max_of_lt_left Nat.one_pos))

/-- The second pointer of the array in `{i32, [2 x i8*]}`. -/
def arrayInStruct : ExtractValueInst layout64 where
  type := .struct false [.number 32, .array .pointer 2]
  indices := [1, 1]
  path := .struct rfl (.array (by decide) (by decide) (.nil _))
  fits := by decide

/-- The pointer is at offset 16, and the `extractvalue` takes what is at 17. -/
theorem extract_between_elements :
    accumulateEVOffsets arrayInStruct = 17 ∧
      layout64.offset arrayInStruct.type arrayInStruct.indices = 16 ∧
      ¬ AggregateOffsetsAgree Unit arrayInStruct := by
  have hoffset : accumulateEVOffsets arrayInStruct = 17 := by decide
  have hlayout : layout64.offset arrayInStruct.type arrayInStruct.indices = 16 := by decide
  refine ⟨hoffset, hlayout, fun h => ?_⟩
  have h := h.extract
  rw [hoffset, hlayout] at h
  exact absurd h (by decide)

end Cape.PointerAnalysis
