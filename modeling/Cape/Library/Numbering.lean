import Mathlib.Data.List.Basic
import Mathlib.Tactic

/-!
# Numbers for keys

A key gets a number the first time it is asked for: the keys are numbered 1, 2, ... in the order in
which they came, and the vector of the keys leads back. Requests keep the numbers given before
(`getID_spec`).
-/

set_option autoImplicit false

namespace Cape.Library

universe u

/-- The keys in the order of their numbers; the key with the number `id` is at `id - 1`. -/
structure Numbering (K : Type u) where
  idVector : List K
  nodup : idVector.Nodup

namespace Numbering

variable {K : Type u} [DecidableEq K]

def empty : Numbering K := ⟨[], List.nodup_nil⟩

/-- The number of a key, if it has one. -/
def find (ids : Numbering K) (k : K) : Option Nat :=
  if k ∈ ids.idVector then some (ids.idVector.idxOf k + 1) else none

/-- A new key at the end. -/
def push (ids : Numbering K) (k : K) (h : k ∉ ids.idVector) : Numbering K where
  idVector := ids.idVector ++ [k]
  nodup := List.nodup_append.2 ⟨ids.nodup, List.nodup_singleton k,
    fun _ ha _ hb hab => h (List.mem_singleton.1 hb ▸ hab ▸ ha)⟩

/-- The number of a key; if it has none, it is assigned one. -/
def getID (ids : Numbering K) (k : K) : Nat × Numbering K :=
  if h : k ∈ ids.idVector then (ids.idVector.idxOf k + 1, ids)
  else (ids.idVector.length + 1, ids.push k h)

/-- Numbers that were given stay. -/
def Preserves (ids ids' : Numbering K) : Prop :=
  ∀ k id, ids.find k = some id → ids'.find k = some id

theorem Preserves.refl (ids : Numbering K) : Preserves ids ids := fun _ _ h => h

theorem Preserves.trans {ids ids' ids'' : Numbering K} (h : Preserves ids ids')
    (h' : Preserves ids' ids'') : Preserves ids ids'' :=
  fun k id hk => h' k id (h k id hk)

/-- A number leads back to its key. -/
theorem getElem?_of_find {ids : Numbering K} {k : K} {id : Nat} (h : ids.find k = some id) :
    1 ≤ id ∧ ids.idVector[id - 1]? = some k := by
  rw [find] at h
  split at h
  · next hk =>
      obtain rfl := Option.some.inj h
      refine ⟨Nat.le_add_left 1 _, ?_⟩
      rw [Nat.add_sub_cancel]
      exact List.getElem?_idxOf hk
  · cases h

theorem find_of_getElem? {ids : Numbering K} {k : K} {id : Nat} (hid : 1 ≤ id)
    (h : ids.idVector[id - 1]? = some k) : ids.find k = some id := by
  rcases List.getElem?_eq_some_iff.1 h with ⟨hlt, hk⟩
  have hmem : k ∈ ids.idVector := hk ▸ List.getElem_mem hlt
  have hindex : ids.idVector.idxOf k = id - 1 := by
    rw [← hk]
    exact ids.nodup.idxOf_getElem _ hlt
  rw [find, if_pos hmem, hindex]
  congr 1
  omega

/-- Different keys have different numbers. -/
theorem find_inj {ids : Numbering K} {k k' : K} {id : Nat} (h : ids.find k = some id)
    (h' : ids.find k' = some id) : k = k' := by
  have heq := (getElem?_of_find h).2
  rw [(getElem?_of_find h').2] at heq
  exact (Option.some.inj heq).symm

/-- A request gives the key its number, and keeps the others. -/
theorem getID_spec (ids : Numbering K) (k : K) :
    (ids.getID k).2.find k = some (ids.getID k).1 ∧ Preserves ids (ids.getID k).2 := by
  rw [getID]
  split
  · next hk =>
      refine ⟨?_, .refl ids⟩
      rw [find, if_pos hk]
  · next hk =>
      constructor
      · apply find_of_getElem? (Nat.le_add_left 1 _)
        rw [Nat.add_sub_cancel]
        exact List.getElem?_concat_length
      · intro k' id h
        rcases getElem?_of_find h with ⟨hid, hk'⟩
        apply find_of_getElem? hid
        show (ids.idVector ++ [k])[id - 1]? = some k'
        rw [List.getElem?_append_left (List.getElem?_eq_some_iff.1 hk').1, hk']

end Numbering

end Cape.Library
