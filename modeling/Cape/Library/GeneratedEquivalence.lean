import Mathlib.Logic.Relation
import Mathlib.Tactic.Common

/-!
# Equivalences generated by pairs

`Related P` is the reflexive, symmetric and transitive closure of a set of pairs on the elements that
occur in them: the least symmetric and transitive relation with the pairs (`related_least`). Pairs may
be added in parts (`related_join`), and one more pair joins the classes of its two elements
(`related_pair`).
-/

set_option autoImplicit false

namespace Cape.Library.GeneratedEquivalence

universe u

variable {α : Type u} {P Q E : α → α → Prop}

/-- The element occurs in a pair. -/
def Mentioned (P : α → α → Prop) (x : α) : Prop := ∃ y, P x y ∨ P y x

/-- The closure of the pairs, on the elements that occur in them. -/
def Related (P : α → α → Prop) (x y : α) : Prop :=
  Mentioned P x ∧ Mentioned P y ∧ Relation.EqvGen P x y

/-- The pairs of both. -/
def Both (P Q : α → α → Prop) (x y : α) : Prop := P x y ∨ Q x y

/-- Symmetric and transitive: an equivalence of the elements that it mentions. -/
structure Classes (E : α → α → Prop) : Prop where
  symm : ∀ {x y}, E x y → E y x
  trans : ∀ {x y z}, E x y → E y z → E x z

theorem related_of {x y : α} (h : P x y) : Related P x y :=
  ⟨⟨y, Or.inl h⟩, ⟨x, Or.inr h⟩, Relation.EqvGen.rel x y h⟩

theorem classes_related (P : α → α → Prop) : Classes (Related P) where
  symm := fun ⟨hx, hy, h⟩ => ⟨hy, hx, h.symm⟩
  trans := fun ⟨hx, _, h⟩ ⟨_, hz, h'⟩ => ⟨hx, hz, h.trans _ _ _ h'⟩

theorem Classes.self_of_mentioned (hE : Classes E) {x : α} (h : Mentioned E x) : E x x := by
  obtain ⟨y, h | h⟩ := h
  · exact hE.trans h (hE.symm h)
  · exact hE.trans (hE.symm h) h

/-- The closure is the least one. -/
theorem related_least (hE : Classes E) (hP : ∀ x y, P x y → E x y) {x y : α}
    (h : Related P x y) : E x y := by
  rcases h with ⟨⟨z, hx⟩, -, h⟩
  have hself : E x x := hE.self_of_mentioned ⟨z, hx.imp (hP _ _) (hP _ _)⟩
  -- along the closure the elements are equal or in one class
  have hall : ∀ {a b}, Relation.EqvGen P a b → a = b ∨ E a b := by
    intro a b hab
    induction hab with
    | rel a b hab => exact Or.inr (hP a b hab)
    | refl a => exact Or.inl rfl
    | symm a b _ ih => exact ih.imp Eq.symm hE.symm
    | trans a b c _ _ ih₁ ih₂ =>
        rcases ih₁ with rfl | ih₁
        · exact ih₂
        · rcases ih₂ with rfl | ih₂
          · exact Or.inr ih₁
          · exact Or.inr (hE.trans ih₁ ih₂)
  rcases hall h with rfl | h
  · exact hself
  · exact h

theorem related_mono (h : ∀ x y, P x y → Q x y) {x y : α} (hxy : Related P x y) : Related Q x y :=
  related_least (classes_related Q) (fun x y hP => related_of (h x y hP)) hxy

theorem related_eq_self (hE : Classes E) : Related E = E := by
  funext x y
  exact propext ⟨related_least hE fun _ _ h => h, related_of⟩

/-- Pairs may be added to what is generated already. -/
theorem related_join (P Q : α → α → Prop) : Related (Both (Related P) Q) = Related (Both P Q) := by
  funext x y
  refine propext ⟨related_least (classes_related _) ?_, related_mono ?_⟩
  · rintro a b (h | h)
    · exact related_mono (fun _ _ => Or.inl) h
    · exact related_of (Or.inr h)
  · rintro a b (h | h)
    · exact Or.inl (related_of h)
    · exact Or.inr h

/-- The element is one of the two, or in the class of one of them. -/
def Near (E : α → α → Prop) (a b x : α) : Prop := x = a ∨ x = b ∨ E a x ∨ E b x

theorem near_of_class (hE : Classes E) {a b x y : α} (h : E x y) (hy : Near E a b y) :
    Near E a b x := by
  rcases hy with rfl | rfl | hy | hy
  · exact Or.inr (Or.inr (Or.inl (hE.symm h)))
  · exact Or.inr (Or.inr (Or.inr (hE.symm h)))
  · exact Or.inr (Or.inr (Or.inl (hE.trans hy (hE.symm h))))
  · exact Or.inr (Or.inr (Or.inr (hE.trans hy (hE.symm h))))

/-- What is near two elements of one class is in that class. -/
theorem of_near (hE : Classes E) {a b x y : α} (hab : E a b) (hx : Near E a b x)
    (hy : Near E a b y) : E x y := by
  have hall : ∀ z, Near E a b z → E a z := by
    rintro z (rfl | rfl | hz | hz)
    · exact hE.trans hab (hE.symm hab)
    · exact hab
    · exact hz
    · exact hE.trans hab hz
  exact hE.trans (hE.symm (hall x hx)) (hall y hy)

/-- **One more pair** joins the classes of its elements. -/
theorem related_pair (hE : Classes E) (a b : α) {x y : α} :
    Related (Both E fun u v => u = a ∧ v = b) x y ↔ E x y ∨ Near E a b x ∧ Near E a b y := by
  constructor
  · refine related_least (E := fun u v => E u v ∨ Near E a b u ∧ Near E a b v) ⟨?_, ?_⟩ ?_
    · exact fun h => h.imp hE.symm And.symm
    · rintro u v w (huv | ⟨hu, hv⟩) (hvw | ⟨hv', hw⟩)
      · exact Or.inl (hE.trans huv hvw)
      · exact Or.inr ⟨near_of_class hE huv hv', hw⟩
      · exact Or.inr ⟨hu, near_of_class hE (hE.symm hvw) hv⟩
      · exact Or.inr ⟨hu, hw⟩
    · rintro u v (h | ⟨rfl, rfl⟩)
      · exact Or.inl h
      · exact Or.inr ⟨Or.inl rfl, Or.inr (Or.inl rfl)⟩
  · have hG := classes_related (Both E fun u v => u = a ∧ v = b)
    have hab : Related (Both E fun u v => u = a ∧ v = b) a b := related_of (Or.inr ⟨rfl, rfl⟩)
    -- what is near is related to the first of the two
    have hnear : ∀ z, Near E a b z → Related (Both E fun u v => u = a ∧ v = b) a z := by
      rintro z (rfl | rfl | h | h)
      · exact hG.trans hab (hG.symm hab)
      · exact hab
      · exact related_of (Or.inl h)
      · exact hG.trans hab (related_of (Or.inl h))
    rintro (h | ⟨hx, hy⟩)
    · exact related_of (Or.inl h)
    · exact hG.trans (hG.symm (hnear x hx)) (hnear y hy)

end Cape.Library.GeneratedEquivalence
