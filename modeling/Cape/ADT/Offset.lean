import Mathlib.Data.Finite.Defs
import Mathlib.Tactic

/-!
# Offsets

An offset is a 64-bit number; the largest one stands for the unknown offset. Sums saturate at the
unknown offset, and a difference below zero is unknown.
-/

set_option autoImplicit false

namespace Cape

/-- `dg::Offset`. -/
structure Offset where
  offset : BitVec 64
deriving DecidableEq, Repr

namespace Offset

/-- `Offset::UNKNOWN`. -/
def unknown : Offset := ⟨BitVec.allOnes 64⟩

instance (n : Nat) : OfNat Offset n := ⟨⟨BitVec.ofNat 64 n⟩⟩

instance : Inhabited Offset := ⟨unknown⟩

def isUnknown (o : Offset) : Bool := o == unknown

/-- The order is strict on the numbers: there is no "maybe" for the unknown offset. -/
instance : LT Offset := ⟨fun a b => a.offset < b.offset⟩

instance : LE Offset := ⟨fun a b => a.offset ≤ b.offset⟩

instance (a b : Offset) : Decidable (a < b) := inferInstanceAs (Decidable (a.offset < b.offset))

instance (a b : Offset) : Decidable (a ≤ b) := inferInstanceAs (Decidable (a.offset ≤ b.offset))

instance : LinearOrder Offset where
  le_refl := fun a => BitVec.le_refl a.offset
  le_trans := fun _ _ _ => BitVec.le_trans
  lt_iff_le_not_ge := by
    intro a b
    show a.offset < b.offset ↔ a.offset ≤ b.offset ∧ ¬ b.offset ≤ a.offset
    constructor
    · intro h
      constructor <;> bv_omega
    · intro h
      bv_omega
  le_antisymm := by
    rintro ⟨a⟩ ⟨b⟩ h h'
    exact congrArg Offset.mk (BitVec.le_antisymm h h')
  le_total := fun a b => BitVec.le_total a.offset b.offset
  toDecidableLE := fun a b => inferInstanceAs (Decidable (a ≤ b))
  toDecidableLT := fun a b => inferInstanceAs (Decidable (a < b))
  toDecidableEq := inferInstance

instance : Add Offset := ⟨fun a b =>
  if a = unknown ∨ b = unknown ∨ unknown.offset - b.offset ≤ a.offset then unknown
  else ⟨a.offset + b.offset⟩⟩

instance : Sub Offset := ⟨fun a b =>
  if a = unknown ∨ b = unknown ∨ a < b then unknown else ⟨a.offset - b.offset⟩⟩

@[simp] theorem isUnknown_iff (o : Offset) : o.isUnknown = true ↔ o = unknown := by
  simp [isUnknown]

theorem isUnknown_eq_false_iff (o : Offset) : o.isUnknown = false ↔ o ≠ unknown := by
  rw [Ne, ← isUnknown_iff, Bool.not_eq_true]

@[simp] theorem isUnknown_unknown : unknown.isUnknown = true := (isUnknown_iff _).2 rfl

/-- The byte `i` behind an offset. -/
def shift (o : Offset) (i : Nat) : Offset := ⟨o.offset + BitVec.ofNat 64 i⟩

/-- No offset is above the unknown one. -/
theorem not_unknown_lt (o : Offset) : ¬ unknown < o := by
  intro h
  have h : unknown.offset.toNat < o.offset.toNat := BitVec.lt_def.1 h
  have hmax : unknown.offset.toNat = 2 ^ 64 - 1 := rfl
  have hlt := o.offset.isLt
  omega

theorem toFin_injective : Function.Injective fun o : Offset => o.offset.toFin :=
  fun _ _ h => congrArg Offset.mk (BitVec.eq_of_toFin_eq h)

instance : Finite Offset := Finite.of_injective _ toFin_injective

theorem card_le : Nat.card Offset ≤ 2 ^ 64 := by
  have h := Nat.card_le_card_of_injective _ toFin_injective
  rwa [Nat.card_fin] at h

/-! ## As numbers -/

def toNat (o : Offset) : Nat := o.offset.toNat

theorem toNat_lt (o : Offset) : o.toNat < 2 ^ 64 := o.offset.isLt

@[simp] theorem toNat_unknown : unknown.toNat = 2 ^ 64 - 1 := rfl

@[simp] theorem toNat_one : (1 : Offset).toNat = 1 := rfl

@[simp] theorem toNat_zero : (0 : Offset).toNat = 0 := rfl

theorem lt_iff {a b : Offset} : a < b ↔ a.toNat < b.toNat := BitVec.lt_def

theorem le_iff {a b : Offset} : a ≤ b ↔ a.toNat ≤ b.toNat := BitVec.le_def

theorem eq_iff {a b : Offset} : a = b ↔ a.toNat = b.toNat := by
  constructor
  · rintro rfl
    rfl
  · intro h
    cases a
    cases b
    exact congrArg Offset.mk (BitVec.eq_of_toNat_eq h)

/-- Sums saturate. -/
theorem toNat_add (a b : Offset) : (a + b).toNat = min (a.toNat + b.toNat) (2 ^ 64 - 1) := by
  have ha := a.toNat_lt
  have hb := b.toNat_lt
  show (if a = unknown ∨ b = unknown ∨ unknown.offset - b.offset ≤ a.offset then unknown
    else ⟨a.offset + b.offset⟩ : Offset).toNat = _
  have hsub : (unknown.offset - b.offset).toNat = 2 ^ 64 - 1 - b.toNat := by
    rw [BitVec.toNat_sub]
    have h : unknown.offset.toNat = 2 ^ 64 - 1 := rfl
    rw [h]
    show (2 ^ 64 - b.toNat + (2 ^ 64 - 1)) % 2 ^ 64 = _
    omega
  split
  · next h =>
      rw [eq_iff, eq_iff, BitVec.le_def, hsub] at h
      have h : a.toNat = 2 ^ 64 - 1 ∨ b.toNat = 2 ^ 64 - 1 ∨ 2 ^ 64 - 1 - b.toNat ≤ a.toNat := h
      rw [toNat_unknown]
      omega
  · next h =>
      rw [eq_iff, eq_iff, BitVec.le_def, hsub] at h
      have h : ¬ (a.toNat = 2 ^ 64 - 1 ∨ b.toNat = 2 ^ 64 - 1 ∨
        2 ^ 64 - 1 - b.toNat ≤ a.toNat) := h
      show (a.offset + b.offset).toNat = _
      rw [BitVec.toNat_add]
      show (a.toNat + b.toNat) % 2 ^ 64 = _
      omega

theorem toNat_sub {a b : Offset} (ha : a ≠ unknown) (h : b ≤ a) :
    (a - b).toNat = a.toNat - b.toNat := by
  have hb : b ≠ unknown := by
    rintro rfl
    rw [Ne, eq_iff, toNat_unknown] at ha
    rw [le_iff, toNat_unknown] at h
    have := a.toNat_lt
    omega
  have hle : b.toNat ≤ a.toNat := le_iff.1 h
  show (if a = unknown ∨ b = unknown ∨ a < b then unknown else ⟨a.offset - b.offset⟩ :
    Offset).toNat = _
  rw [if_neg]
  · show (a.offset - b.offset).toNat = _
    rw [BitVec.toNat_sub]
    have := a.toNat_lt
    show (2 ^ 64 - b.toNat + a.toNat) % 2 ^ 64 = _
    omega
  · rintro (h' | h' | h')
    · exact ha h'
    · exact hb h'
    · exact absurd h (not_le.2 h')

@[simp] theorem unknown_sub (b : Offset) : unknown - b = unknown := by
  show (if unknown = unknown ∨ b = unknown ∨ unknown < b then unknown
    else ⟨unknown.offset - b.offset⟩) = unknown
  rw [if_pos (Or.inl rfl)]

theorem toNat_add_one {a : Offset} (h : a.toNat < 2 ^ 64 - 1) : (a + 1).toNat = a.toNat + 1 := by
  rw [toNat_add, toNat_one]
  omega

theorem toNat_sub_one {a : Offset} (ha : a.toNat < 2 ^ 64 - 1) (h : 0 < a.toNat) :
    (a - 1).toNat = a.toNat - 1 := by
  rw [toNat_sub, toNat_one]
  · rintro rfl
    rw [toNat_unknown] at ha
    omega
  · rw [le_iff, toNat_one]
    omega

/-- The known offsets are the bytes. -/
theorem ne_unknown_iff {a : Offset} : a ≠ unknown ↔ a.toNat < 2 ^ 64 - 1 := by
  rw [Ne, eq_iff, toNat_unknown]
  have := a.toNat_lt
  omega

end Offset

end Cape
