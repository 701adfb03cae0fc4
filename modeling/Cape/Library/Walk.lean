import Mathlib.Data.List.Basic
import Mathlib.Data.List.Nodup
import Mathlib.Logic.Relation
import Mathlib.Tactic

/-!
# Walks in a directed graph

A walk records the vertices it visits, both ends included. The file has the constructions the
developments on control-flow graphs use: joining walks, cutting a walk at one of its vertices, at
the first or at the last visit, and the passage between walks and reachability, also when one
vertex is to be avoided.
-/

set_option autoImplicit false

namespace Cape.Library

universe u

variable {α : Type u}

/-- The edges of successor lists. -/
def Edge (next : α → List α) (a b : α) : Prop := b ∈ next a

/-- `Walk r a π b`: along `r` from `a` to `b`, visiting the vertices `π`. -/
inductive Walk (r : α → α → Prop) : α → List α → α → Prop
  | single (a : α) : Walk r a [a] a
  | cons {a b c : α} {π : List α} : r a b → Walk r b π c → Walk r a (a :: π) c

namespace Walk

variable {r : α → α → Prop}

theorem start_mem {a b : α} {π : List α} (h : Walk r a π b) : a ∈ π := by
  cases h with
  | single => exact List.mem_cons_self
  | cons _ _ => exact List.mem_cons_self

theorem end_mem {a b : α} {π : List α} (h : Walk r a π b) : b ∈ π := by
  induction h with
  | single => exact List.mem_cons_self
  | cons _ _ ih => exact List.mem_cons_of_mem _ ih

/-- The visited list starts at the start. -/
theorem eq_cons {a b : α} {π : List α} (h : Walk r a π b) : ∃ σ, π = a :: σ := by
  cases h with
  | single => exact ⟨[], rfl⟩
  | cons _ _ => exact ⟨_, rfl⟩

theorem append {a b c d : α} {π σ : List α} (h : Walk r a π b) (hbc : r b c)
    (h' : Walk r c σ d) : Walk r a (π ++ σ) d := by
  induction h with
  | single a => exact .cons hbc h'
  | cons hab _ ih => exact .cons hab (ih hbc)

/-- Walks that share an end join there; the shared vertex is listed once. -/
theorem join {a b c : α} {π σ : List α} (h : Walk r a π b) (h' : Walk r b (b :: σ) c) :
    Walk r a (π ++ σ) c := by
  induction h with
  | single a => exact h'
  | cons hab _ ih => exact .cons hab (ih h')

theorem snoc {a b c : α} {π : List α} (h : Walk r a π b) (hbc : r b c) :
    Walk r a (π ++ [c]) c :=
  h.append hbc (.single c)

/-- A walk backwards. -/
theorem reverse {r : α → α → Prop} {a b : α} {π : List α} (h : Walk r a π b) :
    Walk (fun x y => r y x) b π.reverse a := by
  induction h with
  | single a => exact .single a
  | cons hab _ ih =>
      rw [List.reverse_cons]
      exact ih.snoc hab

/-- Inversion of a walk whose visited list is a cons. -/
theorem of_cons {a b y : α} {ρ : List α} (h : Walk r a (y :: ρ) b) :
    a = y ∧ ((ρ = [] ∧ b = y) ∨ ∃ c, r y c ∧ Walk r c ρ b) := by
  cases h with
  | single => exact ⟨rfl, Or.inl ⟨rfl, rfl⟩⟩
  | cons hab hrest => exact ⟨rfl, Or.inr ⟨_, hab, hrest⟩⟩

/-- Cutting a walk at a visit. -/
theorem split {a b x : α} {π₁ π₂ : List α} (h : Walk r a (π₁ ++ x :: π₂) b) :
    Walk r a (π₁ ++ [x]) x ∧ Walk r x (x :: π₂) b := by
  induction π₁ generalizing a with
  | nil =>
      obtain ⟨rfl, -⟩ := of_cons h
      exact ⟨.single a, h⟩
  | cons y π₁ ih =>
      obtain ⟨rfl, hnil | ⟨c, hac, hrest⟩⟩ := of_cons h
      · simp at hnil
      · obtain ⟨h1, h2⟩ := ih hrest
        exact ⟨.cons hac h1, h2⟩

/-- Cutting a walk at the first visit of a vertex. -/
theorem split_first {a b x : α} {π : List α} (h : Walk r a π b) (hx : x ∈ π) :
    ∃ π₁ π₂, π = π₁ ++ x :: π₂ ∧ x ∉ π₁ ∧ Walk r a (π₁ ++ [x]) x ∧ Walk r x (x :: π₂) b := by
  obtain ⟨π₁, π₂, rfl, hnot⟩ := List.eq_append_cons_of_mem hx
  exact ⟨π₁, π₂, rfl, hnot, h.split⟩

/-- Cutting a walk at the last visit of a vertex. -/
theorem split_last {a b x : α} {π : List α} (h : Walk r a π b) (hx : x ∈ π) :
    ∃ π₁ π₂, π = π₁ ++ x :: π₂ ∧ x ∉ π₂ ∧ Walk r a (π₁ ++ [x]) x ∧ Walk r x (x :: π₂) b := by
  obtain ⟨σ₁, σ₂, hrev, hnot⟩ := List.eq_append_cons_of_mem (List.mem_reverse.2 hx)
  have hπ : π = σ₂.reverse ++ x :: σ₁.reverse := by
    rw [← List.reverse_reverse π, hrev]
    simp
  subst hπ
  exact ⟨σ₂.reverse, σ₁.reverse, rfl, fun hmem => hnot (List.mem_reverse.1 hmem), h.split⟩

/-- A walk along a subrelation. -/
theorem mono {s : α → α → Prop} (hrs : ∀ a b, r a b → s a b) {a b : α} {π : List α}
    (h : Walk r a π b) : Walk s a π b := by
  induction h with
  | single a => exact .single a
  | cons hab _ ih => exact .cons (hrs _ _ hab) ih

/-! ## Walks and reachability -/

theorem reflTransGen {a b : α} {π : List α} (h : Walk r a π b) : Relation.ReflTransGen r a b := by
  induction h with
  | single a => exact .refl
  | cons hab _ ih => exact .head hab ih

theorem exists_of_reflTransGen {a b : α} (h : Relation.ReflTransGen r a b) :
    ∃ π, Walk r a π b := by
  induction h with
  | refl => exact ⟨[a], .single a⟩
  | tail _ hbc ih =>
      obtain ⟨π, hπ⟩ := ih
      exact ⟨_, hπ.snoc hbc⟩

/-- A walk can be made to visit no vertex twice. -/
theorem exists_nodup {a b : α} {π : List α} (h : Walk r a π b) :
    ∃ σ, Walk r a σ b ∧ σ.Nodup ∧ σ ⊆ π := by
  induction h with
  | single a => exact ⟨[a], .single a, List.nodup_singleton a, List.Subset.refl _⟩
  | @cons a b c π hab _ ih =>
      obtain ⟨σ, hσ, hnd, hsub⟩ := ih
      by_cases ha : a ∈ σ
      · obtain ⟨σ₁, σ₂, rfl⟩ := List.append_of_mem ha
        refine ⟨a :: σ₂, hσ.split.2, (List.nodup_append.1 hnd).2.1, ?_⟩
        exact fun x hx => List.mem_cons_of_mem _ (hsub (List.mem_append_right _ hx))
      · refine ⟨a :: σ, .cons hab hσ, List.nodup_cons.2 ⟨ha, hnd⟩, ?_⟩
        exact List.cons_subset_cons a hsub

/-- A walk with an edge. -/
theorem transGen {a b : α} {π : List α} (h : Walk r a (a :: π) b) (hne : π ≠ []) :
    Relation.TransGen r a b := by
  obtain ⟨-, ⟨rfl, -⟩ | ⟨c, hac, hrest⟩⟩ := of_cons h
  · exact absurd rfl hne
  · exact .head' hac hrest.reflTransGen

end Walk

end Cape.Library
