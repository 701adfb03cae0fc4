import Mathlib.Data.Set.Insert
import Mathlib.Logic.Relation
import Mathlib.Tactic.Common

/-!
# Taking a vertex out of a graph

`Without R b`: the vertex `b` has no edges, and every edge to it followed by an edge from it has become
an edge around it. The paths between the other vertices are the same (`transGen_without`), also where
the vertex has an edge to itself.

`Via R S`: a path whose inner vertices are in `S`. When the vertices of `S` are taken out one after the
other, the edges left are those paths between the other vertices (`without_via`).
-/

set_option autoImplicit false

namespace Cape.Library.Elimination

universe u

open Relation

variable {α : Type u} {R : α → α → Prop} {b : α}

/-- The edges when `b` is taken out and its predecessors are connected to its successors. -/
def Without (R : α → α → Prop) (b x y : α) : Prop := x ≠ b ∧ y ≠ b ∧ (R x y ∨ R x b ∧ R b y)

theorem transGen_of_without {x y : α} (h : TransGen (Without R b) x y) : TransGen R x y := by
  have hedge : ∀ x y, Without R b x y → TransGen R x y := by
    rintro x y ⟨-, -, h | ⟨hx, hy⟩⟩
    · exact TransGen.single h
    · exact (TransGen.single hx).tail hy
  induction h with
  | single h => exact hedge _ _ h
  | tail _ h ih => exact ih.trans (hedge _ _ h)

/-- A path from another vertex has become one, up to its end or to the last vertex before `b`. -/
theorem without_of_transGen {x y : α} (hx : x ≠ b) (h : TransGen R x y) :
    (y = b → ∃ z, z ≠ b ∧ R z b ∧ ReflTransGen (Without R b) x z) ∧
    (y ≠ b → TransGen (Without R b) x y) := by
  induction h with
  | single h =>
      refine ⟨?_, fun hy => TransGen.single ⟨hx, hy, Or.inl h⟩⟩
      rintro rfl
      exact ⟨x, hx, h, ReflTransGen.refl⟩
  | @tail y z hxy hyz ih =>
      by_cases hy : y = b
      · -- the edge leaves `b`: it goes on from the last vertex before
        obtain ⟨w, hw, hwb, hxw⟩ := ih.1 hy
        subst hy
        refine ⟨fun _ => ⟨w, hw, hwb, hxw⟩, fun hz => ?_⟩
        exact TransGen.tail' hxw ⟨hw, hz, Or.inr ⟨hwb, hyz⟩⟩
      · refine ⟨?_, fun hz => (ih.2 hy).tail ⟨hy, hz, Or.inl hyz⟩⟩
        rintro rfl
        exact ⟨y, hy, hyz, (ih.2 hy).to_reflTransGen⟩

/-- **The paths between the other vertices are the same.** -/
theorem transGen_without {x y : α} (hx : x ≠ b) (hy : y ≠ b) :
    TransGen (Without R b) x y ↔ TransGen R x y :=
  ⟨transGen_of_without, fun h => (without_of_transGen hx h).2 hy⟩

/-! ## Several vertices -/

/-- There is a path with all inner vertices in `S`. -/
inductive Via (R : α → α → Prop) (S : Set α) : α → α → Prop
  | edge {x y : α} : R x y → Via R S x y
  | through {x y z : α} : Via R S x y → y ∈ S → R y z → Via R S x z

variable {S : Set α}

theorem via_empty {x y : α} : Via R ∅ x y ↔ R x y := by
  refine ⟨fun h => ?_, Via.edge⟩
  cases h with
  | edge h => exact h
  | through _ hy _ => exact absurd hy (Set.notMem_empty _)

theorem Via.mono {T : Set α} (hsub : ∀ x ∈ S, x ∈ T) {x y : α} (h : Via R S x y) : Via R T x y := by
  induction h with
  | edge h => exact Via.edge h
  | through _ hy h ih => exact Via.through ih (hsub _ hy) h

theorem Via.trans {x y z : α} (h : Via R S x y) (hy : y ∈ S) (h' : Via R S y z) : Via R S x z := by
  induction h' with
  | edge h' => exact Via.through h hy h'
  | through _ hz h' ih => exact Via.through ih hz h'

/-- A path through one more vertex: up to where it comes there first, and from where it is there last. -/
theorem via_insert {x y : α} :
    Via R (insert b S) x y ↔ Via R S x y ∨ Via R S x b ∧ Via R S b y := by
  constructor
  · intro h
    induction h with
    | edge h => exact Or.inl (Via.edge h)
    | through _ hy h ih =>
        obtain rfl | hy := Set.mem_insert_iff.1 hy
        · rcases ih with hxb | ⟨hxb, -⟩
          · exact Or.inr ⟨hxb, Via.edge h⟩
          · exact Or.inr ⟨hxb, Via.edge h⟩
        · rcases ih with hxy | ⟨hxb, hby⟩
          · exact Or.inl (Via.through hxy hy h)
          · exact Or.inr ⟨hxb, Via.through hby hy h⟩
  · have hsub : ∀ z ∈ S, z ∈ insert b S := fun z hz => Set.mem_insert_of_mem b hz
    rintro (h | ⟨hxb, hby⟩)
    · exact h.mono hsub
    · exact (hxb.mono hsub).trans (Set.mem_insert b S) (hby.mono hsub)

/-- **Taking out one more vertex.** -/
theorem without_via (hb : b ∉ S) {x y : α} :
    Without (fun x y => x ∉ S ∧ y ∉ S ∧ Via R S x y) b x y ↔
      x ∉ insert b S ∧ y ∉ insert b S ∧ Via R (insert b S) x y := by
  rw [Without, via_insert, Set.mem_insert_iff, Set.mem_insert_iff]
  constructor
  · rintro ⟨hx, hy, ⟨hxS, hyS, h⟩ | ⟨⟨hxS, -, hxb⟩, -, hyS, hby⟩⟩
    · exact ⟨not_or.2 ⟨hx, hxS⟩, not_or.2 ⟨hy, hyS⟩, Or.inl h⟩
    · exact ⟨not_or.2 ⟨hx, hxS⟩, not_or.2 ⟨hy, hyS⟩, Or.inr ⟨hxb, hby⟩⟩
  · rintro ⟨hx, hy, h | ⟨hxb, hby⟩⟩
    · exact ⟨fun heq => hx (Or.inl heq), fun heq => hy (Or.inl heq),
        Or.inl ⟨fun hS => hx (Or.inr hS), fun hS => hy (Or.inr hS), h⟩⟩
    · exact ⟨fun heq => hx (Or.inl heq), fun heq => hy (Or.inl heq),
        Or.inr ⟨⟨fun hS => hx (Or.inr hS), hb, hxb⟩, hb, fun hS => hy (Or.inr hS), hby⟩⟩

/-! ## Paths by their first edge -/

theorem via_iff_first {x y : α} : Via R S x y ↔ R x y ∨ ∃ z ∈ S, R x z ∧ Via R S z y := by
  constructor
  · intro h
    induction h with
    | edge h => exact Or.inl h
    | through _ hy h ih =>
        obtain hfirst | ⟨z, hz, hfirst, hrest⟩ := ih
        · exact Or.inr ⟨_, hy, hfirst, Via.edge h⟩
        · exact Or.inr ⟨z, hz, hfirst, Via.through hrest hy h⟩
  · rintro (h | ⟨z, hz, hfirst, hrest⟩)
    · exact Via.edge h
    · exact (Via.edge hfirst).trans hz hrest

/-- A path whose first edge is one of `A` and whose inner vertices are in `S`. -/
def ViaFrom (A R : α → α → Prop) (S : Set α) (x y : α) : Prop :=
  A x y ∨ ∃ z ∈ S, A x z ∧ Via R S z y

variable {A : α → α → Prop}

theorem viaFrom_insert {x y : α} :
    ViaFrom A R (insert b S) x y ↔ ViaFrom A R S x y ∨ ViaFrom A R S x b ∧ Via R S b y := by
  constructor
  · rintro (h | ⟨z, hz, hfirst, hrest⟩)
    · exact Or.inl (Or.inl h)
    · -- the path behind the first edge comes through the new vertex, or does not
      obtain rfl | hz := Set.mem_insert_iff.1 hz
      · obtain hrest | ⟨-, hrest⟩ := via_insert.1 hrest
        · exact Or.inr ⟨Or.inl hfirst, hrest⟩
        · exact Or.inr ⟨Or.inl hfirst, hrest⟩
      · obtain hrest | ⟨hzb, hby⟩ := via_insert.1 hrest
        · exact Or.inl (Or.inr ⟨z, hz, hfirst, hrest⟩)
        · exact Or.inr ⟨Or.inr ⟨z, hz, hfirst, hzb⟩, hby⟩
  · have hsub : ∀ z ∈ S, z ∈ insert b S := fun z hz => Set.mem_insert_of_mem b hz
    rintro ((h | ⟨z, hz, hfirst, hrest⟩) | ⟨h | ⟨z, hz, hfirst, hzb⟩, hby⟩)
    · exact Or.inl h
    · exact Or.inr ⟨z, hsub z hz, hfirst, hrest.mono hsub⟩
    · exact Or.inr ⟨b, Set.mem_insert b S, h, hby.mono hsub⟩
    · exact Or.inr ⟨z, hsub z hz, hfirst, (hzb.mono hsub).trans (Set.mem_insert b S) (hby.mono hsub)⟩

/-- **Taking out one more vertex**, for the edges `A` among all. -/
theorem viaFrom_without (hb : b ∉ S) {x y : α} :
    (x ≠ b ∧ y ≠ b ∧ ((x ∉ S ∧ y ∉ S ∧ ViaFrom A R S x y) ∨
      (x ∉ S ∧ b ∉ S ∧ ViaFrom A R S x b) ∧ b ∉ S ∧ y ∉ S ∧ Via R S b y)) ↔
        x ∉ insert b S ∧ y ∉ insert b S ∧ ViaFrom A R (insert b S) x y := by
  rw [viaFrom_insert, Set.mem_insert_iff, Set.mem_insert_iff, not_or, not_or]
  constructor
  · rintro ⟨hx, hy, ⟨hxS, hyS, h⟩ | ⟨⟨hxS, -, hxb⟩, -, hyS, hby⟩⟩
    · exact ⟨⟨hx, hxS⟩, ⟨hy, hyS⟩, Or.inl h⟩
    · exact ⟨⟨hx, hxS⟩, ⟨hy, hyS⟩, Or.inr ⟨hxb, hby⟩⟩
  · rintro ⟨⟨hx, hxS⟩, ⟨hy, hyS⟩, h | ⟨hxb, hby⟩⟩
    · exact ⟨hx, hy, Or.inl ⟨hxS, hyS, h⟩⟩
    · exact ⟨hx, hy, Or.inr ⟨⟨hxS, hb, hxb⟩, hb, hyS, hby⟩⟩

end Cape.Library.Elimination
