import Mathlib.Data.List.Basic
import Mathlib.Order.Lattice
import Mathlib.Tactic.Common

/-!
# Ordered maps

A map as a list of entries that is sorted by the keys. `find_store` and `find_erase` say what the
operations do to the values; they need no order. In a sorted list an entry is what is found for its key
(`Sorted.find_eq_some_iff`).
-/

set_option autoImplicit false

namespace Cape.Library.OrderedMap

universe u v

variable {K : Type u} {V : Type v}

/-- The value of a key. -/
def find [DecidableEq K] (k : K) : List (K × V) → Option V
  | [] => none
  | e :: m => if e.1 = k then some e.2 else find k m

/-- The key gets the value; a new key comes before the first larger one. -/
def store [LinearOrder K] (k : K) (v : V) : List (K × V) → List (K × V)
  | [] => [(k, v)]
  | e :: m =>
      if k < e.1 then (k, v) :: e :: m
      else if e.1 = k then (k, v) :: m
      else e :: store k v m

/-- The key is taken out. -/
def erase [DecidableEq K] (k : K) (m : List (K × V)) : List (K × V) := m.filter fun e => e.1 ≠ k

/-- The keys go up. -/
def Sorted [LT K] (m : List (K × V)) : Prop := m.Pairwise fun e e' => e.1 < e'.1

section Values

variable [LinearOrder K]

@[simp] theorem find_nil (k : K) : find k ([] : List (K × V)) = none := rfl

theorem find_store (k k' : K) (v : V) (m : List (K × V)) :
    find k' (store k v m) = if k' = k then some v else find k' m := by
  induction m with
  | nil => simp [store, find, eq_comm]
  | cons e m ih =>
      rw [store]
      split
      · simp [find, eq_comm]
      · split
        · next heq =>
            by_cases hk : k' = k
            · simp [find, hk]
            · simp [find, Ne.symm hk, hk, heq]
        · next hne =>
            by_cases hk : k' = k
            · subst hk
              simp [find, hne, ih]
            · simp [find, hk, ih]

theorem find_erase (k k' : K) (m : List (K × V)) :
    find k' (erase k m) = if k' = k then none else find k' m := by
  induction m with
  | nil => simp [erase]
  | cons e m ih =>
      rw [erase, List.filter_cons]
      by_cases he : e.1 = k
      · rw [if_neg (by simp [he])]
        have ih : find k' (m.filter fun e => e.1 ≠ k) = _ := ih
        rw [ih]
        by_cases hk : k' = k
        · simp [hk]
        · have hne : ¬ e.1 = k' := fun h => hk (h.symm.trans he)
          simp [find, hk, hne]
      · rw [if_pos (by simp [he])]
        have ih : find k' (m.filter fun e => e.1 ≠ k) = _ := ih
        rw [find, ih]
        by_cases hk : k' = k
        · subst hk
          simp [he]
        · simp [find, hk]

theorem mem_store {k : K} {v : V} {m : List (K × V)} {e : K × V} (h : e ∈ store k v m) :
    e = (k, v) ∨ e ∈ m := by
  induction m with
  | nil => exact Or.inl (List.mem_singleton.1 h)
  | cons e' m ih =>
      rw [store] at h
      split at h
      · exact List.mem_cons.1 h
      · split at h
        · exact (List.mem_cons.1 h).imp_right (List.mem_cons_of_mem e')
        · rcases List.mem_cons.1 h with rfl | h
          · exact Or.inr List.mem_cons_self
          · exact (ih h).imp_right (List.mem_cons_of_mem e')

theorem mem_of_mem_erase {k : K} {m : List (K × V)} {e : K × V} (h : e ∈ erase k m) : e ∈ m :=
  (List.mem_filter.1 h).1

end Values

section Order

variable [LinearOrder K]

theorem Sorted.store {m : List (K × V)} (h : Sorted m) (k : K) (v : V) :
    Sorted (store k v m) := by
  induction m with
  | nil => exact List.pairwise_singleton _ _
  | cons e m ih =>
      rcases List.pairwise_cons.1 h with ⟨he, hm⟩
      rw [OrderedMap.store]
      split
      · next hlt =>
          refine List.pairwise_cons.2 ⟨fun e' he' => ?_, h⟩
          rcases List.mem_cons.1 he' with rfl | he'
          · exact hlt
          · exact lt_trans hlt (he e' he')
      · next hle =>
          split
          · next heq =>
              refine List.pairwise_cons.2 ⟨fun e' he' => ?_, hm⟩
              have hlt := he e' he'
              rw [heq] at hlt
              exact hlt
          · next hne =>
              refine List.pairwise_cons.2 ⟨fun e' he' => ?_, ih hm⟩
              rcases mem_store he' with rfl | he'
              · exact lt_of_le_of_ne (not_lt.1 hle) hne
              · exact he e' he'

theorem Sorted.erase {m : List (K × V)} (h : Sorted m) (k : K) : Sorted (erase k m) := h.filter _

theorem Sorted.find_eq_some_iff {m : List (K × V)} (h : Sorted m) {k : K} {v : V} :
    find k m = some v ↔ (k, v) ∈ m := by
  induction m with
  | nil => simp
  | cons e m ih =>
      rcases List.pairwise_cons.1 h with ⟨he, hm⟩
      rw [find, List.mem_cons]
      split
      · next heq =>
          subst heq
          constructor
          · intro h
            exact Or.inl (Prod.ext rfl (Option.some.inj h).symm)
          · rintro (h | h)
            · rw [← h]
            · exact absurd (he _ h) (lt_irrefl _)
      · next hne =>
          rw [ih hm]
          refine (or_iff_right ?_).symm
          rintro rfl
          exact hne rfl

end Order

end Cape.Library.OrderedMap
