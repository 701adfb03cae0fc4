import Cape.Library.Dominance

/-!
# Dominance frontiers

`Frontier r root x y`: an edge leads to `y` from a vertex that `x` dominates, but `x` does not
strictly dominate `y`. Up the dominator tree a frontier is made of a local part and of the frontiers
of the children: `frontier_of_edge`, `frontier_of_child` and `frontier_cases` are the three rules by
which it is computed. `strictlyDominates_iff_idom` says when it is enough to ask for the immediate
dominator of `y`.
-/

set_option autoImplicit false

namespace Cape.Library

universe u

variable {α : Type u} (r : α → α → Prop) (root : α)

/-- The vertices where the dominance of `x` ends. -/
def Frontier (x y : α) : Prop :=
  (∃ s, r s y ∧ Dominates r root x s) ∧ ¬ StrictlyDominates r root x y

variable {r root}

/-- A strict dominator of the end of an edge dominates its start. -/
theorem StrictlyDominates.of_edge {d s y : α} (h : StrictlyDominates r root d y) (hsy : r s y) :
    Dominates r root d s := by
  intro π hπ
  obtain hmem | hmem := List.mem_append.1 (h.2 _ (hπ.snoc hsy))
  · exact hmem
  · exact absurd (List.mem_singleton.1 hmem) h.1

theorem StrictlyDominates.trans {a b c : α} (hc : FromRoot r root c)
    (hab : StrictlyDominates r root a b) (hbc : StrictlyDominates r root b c) :
    StrictlyDominates r root a c := by
  refine ⟨?_, hab.2.trans hbc.2⟩
  rintro rfl
  exact hbc.1 (hbc.2.antisymm hab.2 hc)

theorem StrictlyDominates.ne_root {d b : α} (h : StrictlyDominates r root d b) : b ≠ root := by
  rintro rfl
  exact h.1 (List.mem_singleton.1 (h.2 [b] (.single b)))

namespace ImmediateDominator

variable {idom : α → Option α} (h : ImmediateDominator r root idom)
  (hall : ∀ x, FromRoot r root x)
include h hall

/-- Along an edge, strict dominance is immediate dominance. -/
theorem strictlyDominates_of_edge {x y : α} (hxy : r x y) :
    StrictlyDominates r root x y ↔ idom y = some x := by
  constructor
  · intro hstrict
    obtain ⟨d, hd⟩ := h.exists_of_ne y (hall y) hstrict.ne_root
    have hdx := (h.strict y d (hall y) hd).of_edge hxy
    have hxd := h.closest y d x (hall y) hd hstrict
    rw [hd, hdx.antisymm hxd (hall x)]
  · exact h.strict y x (hall y)

/-- The local part. -/
theorem frontier_of_edge {x y : α} (hxy : r x y) (hne : idom y ≠ some x) : Frontier r root x y := by
  refine ⟨⟨x, hxy, .refl x⟩, fun hstrict => hne ?_⟩
  exact (h.strictlyDominates_of_edge hall hxy).1 hstrict

/-- What comes up from a child. -/
theorem frontier_of_child {x c y : α} (hc : idom c = some x) (hy : Frontier r root c y)
    (hnot : ¬ StrictlyDominates r root x y) : Frontier r root x y := by
  obtain ⟨⟨s, hsy, hcs⟩, -⟩ := hy
  exact ⟨⟨s, hsy, (h.strict c x (hall c) hc).2.trans hcs⟩, hnot⟩

/-- A vertex that `x` strictly dominates is below a child of `x`. -/
theorem exists_child {x s : α} (hs : StrictlyDominates r root x s) :
    ∃ c, idom c = some x ∧ Dominates r root c s := by
  obtain ⟨c, hsc, hcx⟩ := Relation.TransGen.tail'_iff.1 ((h.transGen_iff (hall s)).2 hs)
  refine ⟨c, hcx, ?_⟩
  obtain rfl | hsc := Relation.reflTransGen_iff_eq_or_transGen.1 hsc
  · exact .refl c
  · exact ((h.transGen_iff (hall s)).1 hsc).2

/-- **All of a frontier is local or comes up from a child.** -/
theorem frontier_cases {x y : α} (hy : Frontier r root x y) :
    (r x y ∧ idom y ≠ some x) ∨ ∃ c, idom c = some x ∧ Frontier r root c y := by
  obtain ⟨⟨s, hsy, hxs⟩, hnot⟩ := hy
  by_cases heq : x = s
  · subst heq
    refine Or.inl ⟨hsy, fun hd => hnot ?_⟩
    exact h.strict y x (hall y) hd
  · obtain ⟨c, hc, hcs⟩ := h.exists_child hall ⟨heq, hxs⟩
    refine Or.inr ⟨c, hc, ⟨s, hsy, hcs⟩, fun hcy => hnot ?_⟩
    exact (h.strict c x (hall c) hc).trans (hall y) hcy

/-- For what comes up from a child, other than the child itself, strict dominance is immediate
dominance. -/
theorem strictlyDominates_iff_idom {x c y : α} (hc : idom c = some x) (hy : Frontier r root c y)
    (hne : y ≠ c) : StrictlyDominates r root x y ↔ idom y = some x := by
  refine ⟨fun hxy => ?_, h.strict y x (hall y)⟩
  obtain ⟨⟨s, hsy, hcs⟩, hnot⟩ := hy
  obtain ⟨d, hd⟩ := h.exists_of_ne y (hall y) hxy.ne_root
  have hdy := h.strict y d (hall y) hd
  have hxd := h.closest y d x (hall y) hd hxy
  -- `d` and the child both dominate the start of the edge, so one of them dominates the other
  have hdc : Dominates r root d c := by
    obtain hcd | hdc := Dominates.total (hall s) hcs (hdy.of_edge hsy)
    · exact absurd ⟨hne.symm, hcd.trans hdy.2⟩ hnot
    · exact hdc
  have hdne : d ≠ c := by
    rintro rfl
    exact hnot hdy
  have hdx := h.closest c x d (hall c) hc ⟨hdne, hdc⟩
  rw [hd, hdx.antisymm hxd (hall x)]

end ImmediateDominator

end Cape.Library
