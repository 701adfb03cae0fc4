import Mathlib.Data.Finset.Insert
import Mathlib.Logic.Function.Basic

/-!
# Families of sets

One element is added to one set of a family.
-/

set_option autoImplicit false

namespace Cape.Library

universe u v

theorem mem_update_insert {α : Type u} {β : Type v} [DecidableEq α] [DecidableEq β]
    {f : α → Finset β} {a x : α} {b y : β} :
    y ∈ Function.update f a (insert b (f a)) x ↔ (x = a ∧ y = b) ∨ y ∈ f x := by
  by_cases hx : x = a
  · subst hx
    simp
  · simp [hx]

end Cape.Library
