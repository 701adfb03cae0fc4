import Mathlib.Order.MinMax
import Mathlib.Logic.Relation

/-!
# Chains and their strongest link

A labelled relation has links `link k a b` with a label from a linear order. `MaxChain link k a b`: a
chain of links leads from `a` to `b`, and `k` is its greatest label. A set of labelled pairs that has
the links and is closed under composition has all chains (`MaxChain.least`).
-/

set_option autoImplicit false

namespace Cape.Library

universe u v

variable {K : Type u} {α : Type v} [LinearOrder K]

/-- A chain of links with the greatest label `k`. -/
inductive MaxChain (link : K → α → α → Prop) : K → α → α → Prop
  | single {k : K} {a b : α} : link k a b → MaxChain link k a b
  | tail {k k' : K} {a b c : α} :
      MaxChain link k a b → link k' b c → MaxChain link (max k k') a c

namespace MaxChain

variable {link : K → α → α → Prop}

theorem trans {k k' : K} {a b c : α} (h : MaxChain link k a b) (h' : MaxChain link k' b c) :
    MaxChain link (max k k') a c := by
  induction h' with
  | single hlink => exact h.tail hlink
  | tail _ hlink ih =>
      rw [← max_assoc]
      exact (ih h).tail hlink

/-- Chains of links of the other direction. -/
theorem flip {link' : K → α → α → Prop} (hlink : ∀ {k a b}, link k a b → link' k b a) {k : K}
    {a b : α} (h : MaxChain link k a b) : MaxChain link' k b a := by
  induction h with
  | single h => exact .single (hlink h)
  | tail _ h ih =>
      rw [max_comm]
      exact (MaxChain.single (hlink h)).trans ih

/-- **Closed sets** of labelled pairs have all chains. -/
theorem least {S : K → α → α → Prop} (hlink : ∀ {k a b}, link k a b → S k a b)
    (htrans : ∀ {k k' a b c}, S k a b → S k' b c → S (max k k') a c) {k : K} {a b : α}
    (h : MaxChain link k a b) : S k a b := by
  induction h with
  | single h => exact hlink h
  | tail _ h ih => exact htrans ih (hlink h)

theorem mono {link' : K → α → α → Prop} (hlink : ∀ {k a b}, link k a b → link' k a b) {k : K}
    {a b : α} (h : MaxChain link k a b) : MaxChain link' k a b :=
  h.least (fun h => .single (hlink h)) trans

end MaxChain

end Cape.Library
