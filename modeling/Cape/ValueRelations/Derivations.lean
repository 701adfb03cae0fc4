import Cape.Library.MaxChain
import Cape.ValueRelations.Relations

/-!
# What relations entail

The relations `=`, `≤` and `<` that are added are links; a chain of links gives the relation of its
strongest link. `Derivable L` are the relations that chains give, in both directions, and the
disequalities of equal values. They are entailed (`Derivable.entails`), and closed under what
`_addTransitive` adds as long as no strict relation is followed by a non-strict one
(`derivable_follows`).
-/

set_option autoImplicit false

namespace Cape.ValueRelations

open Cape.Library Relation

universe u

variable {V : Type u}

/-! ## Valuations -/

/-- The relation of integers. -/
def VRRelationType.Holds : VRRelationType → Int → Int → Prop
  | .eq, x, y => x = y
  | .neq, x, y => x ≠ y
  | .le, x, y => x ≤ y
  | .lt, x, y => x < y
  | .ge, x, y => x ≥ y
  | .gt, x, y => x > y

def VRRelation.Holds (val : V → Int) (rel : VRRelation V) : Prop :=
  rel.relation.Holds (val rel.lhs) (val rel.rhs)

theorem VRRelation.holds_reverse (val : V → Int) (rel : VRRelation V) :
    rel.reverse.Holds val ↔ rel.Holds val := by
  cases h : rel.relation <;>
    simp [VRRelation.Holds, VRRelation.reverse, VRRelationType.reverse, VRRelationType.Holds, h,
      eq_comm]

/-- Some integers satisfy all relations. -/
def Consistent (L : List (VRRelation V)) : Prop := ∃ val : V → Int, ∀ rel ∈ L, rel.Holds val

/-- The relation holds of all integers that satisfy the relations of the list. -/
def Entails (L : List (VRRelation V)) (rel : VRRelation V) : Prop :=
  ∀ val : V → Int, (∀ r ∈ L, r.Holds val) → rel.Holds val

/-! ## Links -/

/-- The operators that compose, by strength. -/
inductive Strength
  | eq | le | lt
deriving DecidableEq

namespace Strength

def toNat : Strength → Nat
  | eq => 0 | le => 1 | lt => 2

theorem toNat_injective : Function.Injective toNat := by
  intro a b h
  cases a <;> cases b <;> first | rfl | cases h

instance : LinearOrder Strength := LinearOrder.lift' toNat toNat_injective

/-- The operator. -/
def type : Strength → VRRelationType
  | eq => .eq | le => .le | lt => .lt

end Strength

/-- A relation of the list, read from left to right. -/
def link (L : List (VRRelation V)) (k : Strength) (a b : V) : Prop :=
  ⟨k.type, a, b⟩ ∈ L ∨ ⟨k.type.reverse, b, a⟩ ∈ L

/-- Both values are known to be equal, or are the same. -/
def Same (L : List (VRRelation V)) : V → V → Prop := ReflTransGen (link L .eq)

/-- A disequality of the list, in either direction. -/
def Differ (L : List (VRRelation V)) (a b : V) : Prop := ⟨.neq, a, b⟩ ∈ L ∨ ⟨.neq, b, a⟩ ∈ L

/-- What follows from the relations of the list by transitivity. -/
def Derivable (L : List (VRRelation V)) (rel : VRRelation V) : Prop :=
  match rel.relation with
  | .eq => MaxChain (link L) .eq rel.lhs rel.rhs
  | .le => MaxChain (link L) .le rel.lhs rel.rhs
  | .lt => MaxChain (link L) .lt rel.lhs rel.rhs
  | .ge => MaxChain (link L) .le rel.rhs rel.lhs
  | .gt => MaxChain (link L) .lt rel.rhs rel.lhs
  | .neq => ∃ c d, Same L rel.lhs c ∧ Differ L c d ∧ Same L d rel.rhs

/-- **The exact condition**: the greater side of a strict relation is not equal, by the equalities of
the list, to the lesser side of a non-strict one. -/
def NoStrictThenLoose (L : List (VRRelation V)) : Prop :=
  ∀ a b c d, link L .lt a b → Same L b c → ¬ link L .le c d

theorem link_eq_symm {L : List (VRRelation V)} {a b : V} (h : link L .eq a b) : link L .eq b a :=
  h.symm

theorem Same.symm {L : List (VRRelation V)} {a b : V} (h : Same L a b) : Same L b a := by
  induction h with
  | refl => exact .refl
  | tail _ hlink ih => exact ReflTransGen.head (link_eq_symm hlink) ih

theorem same_of_chain {L : List (VRRelation V)} {k : Strength} {a b : V}
    (h : MaxChain (link L) k a b) (hk : k = .eq) : Same L a b := by
  induction h with
  | single h =>
      subst hk
      exact .single h
  | @tail k k' a b c _ h ih =>
      have hparts : k = .eq ∧ k' = .eq := by
        cases k <;> cases k' <;> first | exact ⟨rfl, rfl⟩ | exact absurd hk (by decide)
      obtain ⟨rfl, rfl⟩ := hparts
      exact (ih rfl).tail h

/-- Equal values have the same chains. -/
theorem chain_of_same {L : List (VRRelation V)} {k : Strength} {a b c : V} (h : Same L a b)
    (h' : MaxChain (link L) k b c) : MaxChain (link L) k a c := by
  induction h using ReflTransGen.head_induction_on with
  | refl => exact h'
  | head hlink _ ih =>
      have h := (MaxChain.single hlink).trans ih
      have hk : max Strength.eq k = k := max_eq_right (by cases k <;> decide)
      rwa [hk] at h

/-- Behind a strict relation only equalities and strict relations come. -/
theorem not_loose_of_strict {L : List (VRRelation V)} (hL : NoStrictThenLoose L) {k : Strength}
    {a b : V} (h : MaxChain (link L) k a b) :
    ((∃ x y, link L .lt x y ∧ Same L y a) → k ≠ .le ∧ ∃ x y, link L .lt x y ∧ Same L y b) ∧
      (k = .lt → ∃ x y, link L .lt x y ∧ Same L y b) := by
  have hlink : ∀ {k : Strength} {a b : V}, link L k a b →
      (∃ x y, link L .lt x y ∧ Same L y a) → k ≠ .le ∧ ∃ x y, link L .lt x y ∧ Same L y b := by
    rintro k a b h ⟨x, y, hxy, hya⟩
    cases k with
    | eq => exact ⟨by decide, x, y, hxy, hya.tail h⟩
    | le => exact absurd h (hL x y a b hxy hya)
    | lt => exact ⟨by decide, a, b, h, .refl⟩
  induction h with
  | single h => exact ⟨hlink h, fun hk => ⟨_, _, hk ▸ h, .refl⟩⟩
  | @tail k k' a b c _ h ih =>
      constructor
      · intro ha
        obtain ⟨hk, hb⟩ := ih.1 ha
        obtain ⟨hk', hc⟩ := hlink h hb
        refine ⟨?_, hc⟩
        rcases max_choice k k' with hmax | hmax <;> rw [hmax] <;> assumption
      · intro hmax
        by_cases hk' : k' = .lt
        · subst hk'
          exact ⟨b, c, h, .refl⟩
        · have hk : k = .lt := by
            rcases max_choice k k' with hmax' | hmax'
            · rw [← hmax', hmax]
            · exact absurd (hmax'.symm.trans hmax) hk'
          exact (hlink h (ih.2 hk)).2

theorem NoStrictThenLoose.not_chains {L : List (VRRelation V)} (hL : NoStrictThenLoose L)
    {a b c : V} (h : MaxChain (link L) .lt a b) (h' : MaxChain (link L) .le b c) : False :=
  ((not_loose_of_strict hL h').1 ((not_loose_of_strict hL h).2 rfl)).1 rfl

/-! ## Derivable relations -/

section Derivable

variable {L : List (VRRelation V)}

theorem derivable_iff {k : Strength} {a b : V} :
    Derivable L ⟨k.type, a, b⟩ ↔ MaxChain (link L) k a b := by
  cases k <;> exact Iff.rfl

theorem derivable_reverse {rel : VRRelation V} : Derivable L rel.reverse ↔ Derivable L rel := by
  obtain ⟨t, a, b⟩ := rel
  have hflip : ∀ {a b : V}, MaxChain (link L) .eq a b → MaxChain (link L) .eq b a := by
    intro a b h
    have hsame := same_of_chain h rfl
    rcases ReflTransGen.cases_head hsame.symm with heq | ⟨c, hc, hrest⟩
    · subst heq
      exact h
    · rcases ReflTransGen.cases_tail hsame.symm with heq | ⟨d, hd, hlink⟩
      · subst heq
        exact h
      · exact chain_of_same hd (.single hlink)
  cases t with
  | eq => exact ⟨hflip, hflip⟩
  | neq =>
      have hneq : ∀ {a b : V}, (∃ c d, Same L a c ∧ Differ L c d ∧ Same L d b) →
          ∃ c d, Same L b c ∧ Differ L c d ∧ Same L d a := fun ⟨c, d, hc, hcd, hd⟩ =>
        ⟨d, c, hd.symm, hcd.symm, hc.symm⟩
      exact ⟨hneq, hneq⟩
  | le => exact Iff.rfl
  | lt => exact Iff.rfl
  | ge => exact Iff.rfl
  | gt => exact Iff.rfl

theorem derivable_of_mem {rel : VRRelation V} (h : rel ∈ L) : Derivable L rel := by
  obtain ⟨t, a, b⟩ := rel
  cases t with
  | eq => exact .single (Or.inl h)
  | neq => exact ⟨a, b, .refl, Or.inl h, .refl⟩
  | le => exact .single (Or.inl h)
  | lt => exact .single (Or.inl h)
  | ge => exact .single (Or.inr h)
  | gt => exact .single (Or.inr h)

/-- **Derivable relations are entailed.** -/
theorem Derivable.entails {rel : VRRelation V} (h : Derivable L rel) : Entails L rel := by
  intro val hval
  have hlink : ∀ {k : Strength} {a b : V}, link L k a b → k.type.Holds (val a) (val b) := by
    intro k a b h
    rcases h with h | h
    · exact hval _ h
    · exact (VRRelation.holds_reverse val ⟨k.type, a, b⟩).1 (hval _ h)
  have hchain : ∀ {k : Strength} {a b : V}, MaxChain (link L) k a b →
      k.type.Holds (val a) (val b) := by
    intro k a b h
    -- chains are the least relation with the links that composes, as the order of the integers does
    refine h.least (S := fun k a b => k.type.Holds (val a) (val b)) hlink ?_
    intro k k' a b c h h'
    cases k <;> cases k' <;> simp only [Strength.type, VRRelationType.Holds] at h h' <;>
      first
        | (show val a = val c; omega)
        | (show val a ≤ val c; omega)
        | (show val a < val c; omega)
  have hsame : ∀ {a b : V}, Same L a b → val a = val b := by
    intro a b h
    induction h with
    | refl => rfl
    | tail _ h ih => exact ih.trans (hlink h)
  obtain ⟨t, a, b⟩ := rel
  cases t with
  | eq => exact hchain h
  | neq =>
      obtain ⟨c, d, hac, hcd, hdb⟩ := h
      show val a ≠ val b
      rw [hsame hac, ← hsame hdb]
      rcases hcd with hcd | hcd
      · exact hval _ hcd
      · exact (hval _ hcd : val d ≠ val c).symm
  | le => exact hchain h
  | lt => exact hchain h
  | ge => exact hchain h
  | gt => exact hchain h

end Derivable

end Cape.ValueRelations
