import Cape.Library.Walk
import Mathlib.Data.Fintype.Card

/-!
# Dominators of a rooted directed graph

`Dominates r root d b`: every walk from the root to `b` visits `d`. Dominance is reflexive and
transitive, antisymmetric on reachable vertices, and the dominators of a reachable vertex form a
chain. A function that gives every reachable vertex its immediate dominator (`ImmediateDominator`)
therefore has the strict dominators as its iterates (`ImmediateDominator.transGen_iff`).
-/

set_option autoImplicit false

namespace Cape.Library

universe u

variable {α : Type u} (r : α → α → Prop) (root : α)

/-- Every walk from the root to `b` visits `d`. -/
def Dominates (d b : α) : Prop := ∀ π, Walk r root π b → d ∈ π

/-- Reachable from the root. -/
def FromRoot (b : α) : Prop := ∃ π, Walk r root π b

variable {r root}

theorem Dominates.refl (b : α) : Dominates r root b b := fun _ hπ => hπ.end_mem

theorem Dominates.of_root (b : α) : Dominates r root root b := fun _ hπ => hπ.start_mem

theorem Dominates.trans {a b c : α} (hab : Dominates r root a b) (hbc : Dominates r root b c) :
    Dominates r root a c := by
  intro π hπ
  obtain ⟨π₁, π₂, rfl, -, h1, -⟩ := hπ.split_first (hbc π hπ)
  rcases List.mem_append.1 (hab _ h1) with hmem | hmem
  · exact List.mem_append_left _ hmem
  · rw [List.mem_singleton] at hmem
    subst hmem
    exact List.mem_append_right _ List.mem_cons_self

/-- A dominator of a reachable vertex is reachable. -/
theorem Dominates.fromRoot {d b : α} (h : Dominates r root d b) (hb : FromRoot r root b) :
    FromRoot r root d := by
  obtain ⟨π, hπ⟩ := hb
  obtain ⟨π₁, -, -, -, h1, -⟩ := hπ.split_first (h π hπ)
  exact ⟨_, h1⟩

theorem Dominates.antisymm {a b : α} (hab : Dominates r root a b) (hba : Dominates r root b a)
    (hb : FromRoot r root b) : a = b := by
  by_contra hne
  obtain ⟨π, hπ⟩ := hb
  -- cut at the first visit of `b`: the part before visits `a`, hence `b` again
  obtain ⟨π₁, π₂, rfl, hnot, h1, -⟩ := hπ.split_first hπ.end_mem
  have ha : a ∈ π₁ := by
    rcases List.mem_append.1 (hab _ h1) with hmem | hmem
    · exact hmem
    · exact absurd (List.mem_singleton.1 hmem) hne
  obtain ⟨σ₁, σ₂, rfl⟩ := List.append_of_mem ha
  rw [List.append_assoc, List.cons_append] at h1
  have hbσ := hba _ h1.split.1
  rcases List.mem_append.1 hbσ with hmem | hmem
  · exact hnot (List.mem_append_left _ hmem)
  · exact hne (List.mem_singleton.1 hmem).symm

/-- **The dominators of a reachable vertex form a chain.** -/
theorem Dominates.total {a c b : α} (hb : FromRoot r root b) (hab : Dominates r root a b)
    (hcb : Dominates r root c b) : Dominates r root a c ∨ Dominates r root c a := by
  by_contra hno
  rw [not_or] at hno
  obtain ⟨hac, hca⟩ := hno
  simp only [Dominates, not_forall] at hac hca
  obtain ⟨ρ, hρ, haρ⟩ := hac
  obtain ⟨σ, hσ, hcσ⟩ := hca
  obtain ⟨π, hπ⟩ := hb
  -- after the last visit of `a` there is no `c`, or after the last visit of `c` there is no `a`
  obtain ⟨π₁, π₂, rfl, ha, -, h2⟩ := hπ.split_last (hab π hπ)
  have hc : c ∈ π₂ := by
    have hmem := hcb _ (hσ.join h2)
    rcases List.mem_append.1 hmem with hmem | hmem
    · exact absurd hmem hcσ
    · exact hmem
  obtain ⟨τ₁, τ₂, rfl⟩ := List.append_of_mem hc
  rw [← List.cons_append] at h2
  have haρ' := hab _ (hρ.join h2.split.2)
  rcases List.mem_append.1 haρ' with hmem | hmem
  · exact haρ hmem
  · exact ha (List.mem_append_right _ (List.mem_cons_of_mem _ hmem))

/-- Strict dominance. -/
def StrictlyDominates (r : α → α → Prop) (root d b : α) : Prop := d ≠ b ∧ Dominates r root d b

/-- `idom` gives every reachable vertex its immediate dominator: its only strict dominator that all
others dominate. The root has none. -/
structure ImmediateDominator (r : α → α → Prop) (root : α) (idom : α → Option α) : Prop where
  root_none : idom root = none
  exists_of_ne : ∀ b, FromRoot r root b → b ≠ root → ∃ d, idom b = some d
  strict : ∀ b d, FromRoot r root b → idom b = some d → StrictlyDominates r root d b
  closest : ∀ b d c, FromRoot r root b → idom b = some d → StrictlyDominates r root c b →
    Dominates r root c d

namespace ImmediateDominator

variable {idom : α → Option α} (h : ImmediateDominator r root idom)
include h

/-- The step from a vertex to its immediate dominator, repeated, reaches strict dominators. -/
theorem strict_of_transGen {b d : α} (hb : FromRoot r root b)
    (hbd : Relation.TransGen (fun x y => idom x = some y) b d) : StrictlyDominates r root d b := by
  induction hbd with
  | single hstep => exact h.strict _ _ hb hstep
  | @tail c d _ hstep ih =>
      have hc : FromRoot r root c := ih.2.fromRoot hb
      have hdc := h.strict _ _ hc hstep
      refine ⟨?_, hdc.2.trans ih.2⟩
      rintro rfl
      exact hdc.1 (hdc.2.antisymm ih.2 hc)

/-- The immediate dominator is reached by a shorter walk. -/
theorem shorter_walk {b d : α} {π : List α} (hπ : Walk r root π b) (hd : idom b = some d) :
    ∃ σ, Walk r root σ d ∧ σ.length < π.length := by
  have hstrict := h.strict b d ⟨π, hπ⟩ hd
  obtain ⟨π₁, π₂, rfl, -, h1, h2⟩ := hπ.split_first (hstrict.2 π hπ)
  refine ⟨_, h1, ?_⟩
  cases π₂ with
  | nil =>
      obtain ⟨-, ⟨-, rfl⟩ | ⟨c, -, hc⟩⟩ := h2.of_cons
      · exact absurd rfl hstrict.1
      · cases hc
  | cons c π₂ =>
      simp only [List.length_append, List.length_cons, List.length_nil]
      omega

/-- Repeating the step reaches every strict dominator. -/
theorem transGen_of_strict {c : α} : ∀ (n : Nat) {b : α} {π : List α}, π.length ≤ n →
    Walk r root π b → StrictlyDominates r root c b →
    Relation.TransGen (fun x y => idom x = some y) b c := by
  intro n
  induction n with
  | zero =>
      intro b π hlen hπ _
      obtain ⟨σ, rfl⟩ := hπ.eq_cons
      simp at hlen
  | succ n ih =>
      intro b π hlen hπ hcb
      have hroot : b ≠ root := by
        rintro rfl
        have hmem := hcb.2 [b] (.single b)
        exact hcb.1 (List.mem_singleton.1 hmem)
      obtain ⟨d, hd⟩ := h.exists_of_ne b ⟨π, hπ⟩ hroot
      obtain ⟨σ, hσ, hlt⟩ := h.shorter_walk hπ hd
      have hcd := h.closest b d c ⟨π, hπ⟩ hd hcb
      by_cases heq : c = d
      · exact .single (heq ▸ hd)
      · exact .head hd (ih (by omega) hσ ⟨heq, hcd⟩)

/-- **The proper ancestors in the dominator tree are the strict dominators.** -/
theorem transGen_iff {b c : α} (hb : FromRoot r root b) :
    Relation.TransGen (fun x y => idom x = some y) b c ↔ StrictlyDominates r root c b := by
  constructor
  · exact h.strict_of_transGen hb
  · intro hcb
    obtain ⟨π, hπ⟩ := hb
    exact h.transGen_of_strict π.length le_rfl hπ hcb

end ImmediateDominator

/-! ## Climbing the dominator tree -/

/-- The proper ancestors of a vertex, closest first, at most `fuel` of them. -/
def ancestors (idom : α → Option α) : Nat → α → List α
  | 0, _ => []
  | fuel + 1, b =>
      match idom b with
      | none => []
      | some d => d :: ancestors idom fuel d

section Ancestors

variable {idom : α → Option α}

@[simp] theorem ancestors_zero (b : α) : ancestors idom 0 b = [] := rfl

theorem ancestors_of_none {b : α} (hb : idom b = none) (fuel : Nat) :
    ancestors idom fuel b = [] := by
  cases fuel with
  | zero => rfl
  | succ fuel => rw [ancestors, hb]

theorem ancestors_of_some {b d : α} (hb : idom b = some d) (fuel : Nat) :
    ancestors idom (fuel + 1) b = d :: ancestors idom fuel d := by
  rw [ancestors, hb]

theorem transGen_of_mem_ancestors {x : α} : ∀ (fuel : Nat) {b : α}, x ∈ ancestors idom fuel b →
    Relation.TransGen (fun u v => idom u = some v) b x := by
  intro fuel
  induction fuel with
  | zero => intro b hx; simp at hx
  | succ fuel ih =>
      intro b hx
      cases hb : idom b with
      | none =>
          rw [ancestors_of_none hb] at hx
          simp at hx
      | some d =>
          rw [ancestors_of_some hb, List.mem_cons] at hx
          rcases hx with rfl | hx
          · exact .single hb
          · exact .head hb (ih hx)

theorem mem_ancestors_of_walk (h : ImmediateDominator r root idom) {x : α} :
    ∀ (fuel : Nat) {b : α} {π : List α}, Walk r root π b → π.length ≤ fuel + 1 →
      Relation.TransGen (fun u v => idom u = some v) b x → x ∈ ancestors idom fuel b := by
  intro fuel
  induction fuel with
  | zero =>
      intro b π hπ hlen hbx
      obtain ⟨σ, rfl⟩ := hπ.eq_cons
      have hσ : σ = [] := List.length_eq_zero_iff.1 (by simpa using hlen)
      subst hσ
      obtain ⟨-, ⟨-, rfl⟩ | ⟨c, -, hc⟩⟩ := hπ.of_cons
      · obtain ⟨c, hc, -⟩ := Relation.TransGen.head'_iff.1 hbx
        rw [h.root_none] at hc
        cases hc
      · cases hc
  | succ fuel ih =>
      intro b π hπ hlen hbx
      obtain ⟨d, hd, hdx⟩ := Relation.TransGen.head'_iff.1 hbx
      rw [ancestors_of_some hd, List.mem_cons]
      obtain ⟨σ, hσ, hlt⟩ := h.shorter_walk hπ hd
      rcases Relation.reflTransGen_iff_eq_or_transGen.1 hdx with heq | htrans
      · exact Or.inl heq
      · exact Or.inr (ih hσ (by omega) htrans)

/-- In the climb every vertex is below the ones listed after it. -/
theorem pairwise_ancestors : ∀ (fuel : Nat) (b : α),
    (b :: ancestors idom fuel b).Pairwise
      fun x y => Relation.TransGen (fun u v => idom u = some v) x y := by
  intro fuel
  induction fuel with
  | zero => intro b; simp
  | succ fuel ih =>
      intro b
      rw [List.pairwise_cons]
      refine ⟨fun y hy => transGen_of_mem_ancestors _ hy, ?_⟩
      cases hb : idom b with
      | none =>
          rw [ancestors_of_none hb]
          exact List.Pairwise.nil
      | some d =>
          rw [ancestors_of_some hb]
          exact ih d

/-- **Climbing as many steps as there are vertices lists exactly the strict dominators.** -/
theorem mem_ancestors [Fintype α] (h : ImmediateDominator r root idom) {b : α}
    (hb : FromRoot r root b) (x : α) :
    x ∈ ancestors idom (Fintype.card α) b ↔ StrictlyDominates r root x b := by
  rw [← h.transGen_iff hb]
  constructor
  · exact transGen_of_mem_ancestors _
  · intro hbx
    obtain ⟨π, hπ⟩ := hb
    obtain ⟨σ, hσ, hnd, -⟩ := hπ.exists_nodup
    exact mem_ancestors_of_walk h _ hσ (le_trans hnd.length_le_card (Nat.le_succ _)) hbx

end Ancestors

end Cape.Library
