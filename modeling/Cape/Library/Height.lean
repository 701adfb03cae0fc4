import Mathlib.Data.Set.Card
import Mathlib.Logic.Relation

/-!
# Heights

How many elements are behind an element along a relation. In a finite type and without cycles, the
number rises with each step.
-/

set_option autoImplicit false

namespace Cape.Library

universe u

variable {α : Type u} (r : α → α → Prop)

/-- The number of elements that lead to the element. -/
noncomputable def height (b : α) : Nat := {a | Relation.TransGen r a b}.ncard

variable {r} [Finite α]

theorem height_le_card (b : α) : height r b ≤ Nat.card α := Set.ncard_le_card _

theorem height_lt (hacyclic : ∀ a, ¬ Relation.TransGen r a a) {a b : α} (h : r a b) :
    height r a < height r b := by
  refine Set.ncard_lt_ncard ⟨fun c hc => hc.tail h, fun hsub => ?_⟩ (Set.toFinite _)
  exact hacyclic a (hsub (Relation.TransGen.single h))

end Cape.Library
